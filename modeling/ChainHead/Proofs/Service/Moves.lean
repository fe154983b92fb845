import ChainHead.Proofs.Service.Steps
import ChainHead.Service.Scenario

/-! The moves of a world in which nobody ends the service: the service goes on, a pause ends, the listener
receives. In each phase of the service its next step is known, and to settle is to take these steps one after the
other. -/

namespace ChainHead

/-- What can happen in a world in which nobody ends the service. -/
inductive Move where
  | advance
  | wake
  | receive
deriving DecidableEq

namespace World

/-- Goes on by one step, if the service can go on without time passing. -/
def advance? (w : World) : Option World :=
  match w.next with
  | (v, some action) => v.act action
  | (v, none) => if w.session.isNone && v.session.isSome then some v else none

/-- Where a service settles, it goes on step by step. -/
theorem settle_eq (fuel : Nat) (w : World) :
    settle (fuel + 1) w =
      match w.advance? with
      | some v => settle fuel v
      | none => w.next.1 := by
  rw [settle, advance?]
  obtain ⟨v, action⟩ := w.next
  cases action with
  | none =>
      dsimp only
      split_ifs <;> rfl
  | some action => rfl

variable {w : World}

theorem act_eq_some_iff {action : Action} {v : World} :
    w.act action = some v ↔ ∃ f, Feed.Step w.service w.feed action f ∧ v = { w with feed := f } := by
  simp only [act, Option.map_eq_some_iff, Feed.step?_eq_some_iff]
  exact exists_congr fun f => and_congr_right fun _ => eq_comm

theorem act_of_step {action : Action} {f : Feed} (h : Feed.Step w.service w.feed action f) :
    w.act action = some { w with feed := f } :=
  act_eq_some_iff.mpr ⟨f, h, rfl⟩

theorem openSession_eq {target : Http.Target} (htarget : Stream.target w.service.url = .ok target) :
    w.openSession =
      { w with
        session := some ((Stream.open? target w.network).items, (Stream.open? target w.network).staysOpen)
        network := w.network.after (Stream.open? target w.network)
        requests := w.requests ++ (Stream.open? target w.network).requests } := by
  rw [openSession, htarget]

/-! ### The next step in each phase -/

theorem advance?_of_starting (hphase : w.feed.phase = .starting) :
    w.advance? = some { w with session := none, feed := w.feed.connect w.service } := by
  have hnext : w.next = ({ w with session := none }, some .connect) := by
    simp only [next, hphase]
  rw [advance?, hnext]
  exact act_of_step (.connect hphase)

section

variable (hexit : w.feed.exit? = none)

include hexit

theorem advance?_of_pausing (hphase : w.feed.phase = .pausing) : w.advance? = none := by
  have hnext : w.next = (w, none) := by simp only [next, hphase, hexit]
  rw [advance?, hnext]
  dsimp only
  cases w.session <;> rfl

theorem advance?_of_delivering {head : HeadEvent} (hphase : w.feed.phase = .delivering head) :
    w.advance? = w.act .send := by
  have hnext : w.next = (w, some .send) := by simp only [next, hphase, hexit]
  rw [advance?, hnext]

theorem next_of_waiting (hphase : w.feed.phase = .waiting) : w.next = w.nextOfSession := by
  simp only [next, hphase, hexit]

theorem advance?_of_no_session (hphase : w.feed.phase = .waiting) (hsession : w.session = none) :
    w.advance? = some w.openSession := by
  have hopen : w.openSession.session.isSome = true := by
    rw [openSession]
    split <;> rfl
  have hnext : w.nextOfSession = (w.openSession, none) := by simp only [nextOfSession, hsession]
  rw [advance?, next_of_waiting hexit hphase, hnext]
  simp only [hsession, hopen]
  rfl

theorem advance?_of_item (hphase : w.feed.phase = .waiting) {item : StreamItem} {rest : List StreamItem}
    {staysOpen : Bool} (hsession : w.session = some (item :: rest, staysOpen)) :
    w.advance? = some { w with session := some (rest, staysOpen), feed := w.feed.take w.service item } := by
  have hnext : w.nextOfSession = ({ w with session := some (rest, staysOpen) }, some (.yield item)) := by
    simp only [nextOfSession, hsession]
  rw [advance?, next_of_waiting hexit hphase, hnext]
  exact act_of_step (.yield item hphase hexit)

theorem advance?_of_silence (hphase : w.feed.phase = .waiting) (hsession : w.session = some ([], true)) :
    w.advance? = none := by
  have hnext : w.nextOfSession = (w, none) := by simp only [nextOfSession, hsession]
  rw [advance?, next_of_waiting hexit hphase, hnext]
  simp only [hsession]
  rfl

end

end World

/-! ### What a listener hears -/

/-- A world, and the heads that its listener has received. -/
structure Reception where
  world : World
  heard : List HeadEvent := []

namespace Reception

/-- What a move does, if it is possible. -/
def move? (r : Reception) : Move → Option Reception
  | .advance => r.world.advance?.map ({ r with world := · })
  | .wake => (r.world.act .wake).map ({ r with world := · })
  | .receive => (r.world.act .receive).map (⟨·, r.heard ++ r.world.feed.channel.take 1⟩)

/-- What moves do one after the other, if all of them are possible. -/
def moves? (r : Reception) : List Move → Option Reception
  | [] => some r
  | move :: rest => (r.move? move).bind fun next => next.moves? rest

end Reception

end ChainHead
