import ChainHead.Proofs.Service.Delivery
import ChainHead.Proofs.Service.Moves

/-! Courses of a world. The service goes on as far as it can, and between its steps a pause can end, and the listener
and whoever ends the service can act, in any order. Each leg of a course does an action that leaves the session
alone, begins a session, asks for it, or takes an item from it; so what holds of a course takes one case for each
of these. The actions of a course are a run of the service, and to settle is to go on by a course. -/

namespace ChainHead

/-- Whether an action is one of the service, and not of the listener or of whoever ends the service. -/
def Action.isOwn : Action → Bool
  | .cancel | .dropReceiver | .receive => false
  | _ => true

namespace World

/-- What can happen next in a world, and the action that it takes, if it takes one. -/
inductive Follows (w : World) : List Action → World → Prop
  | advance {v : World} (hadvance : w.advance? = some v) : Follows w w.next.2.toList v
  | outside {action : Action} {v : World} (houtside : action.isOwn = false ∨ action = .wake)
      (hact : w.act action = some v) : Follows w [action] v

/-- A course from a world to another one, with the actions that are done in it. -/
inductive Course (start : World) : List Action → World → Prop
  | here : Course start [] start
  | on {actions more : List Action} {w v : World} (hcourse : Course start actions w) (hnext : w.Follows more v) :
      Course start (actions ++ more) v

/-- What happens next in a world, and what it needs. -/
inductive Leg (w : World) : List Action → World → Prop
  | act {action : Action} {f : Feed} (hstep : Feed.Step w.service w.feed action f) (hitem : action.item? = none)
      (hconnect : action.isConnect = false) : Leg w [action] { w with feed := f }
  | begin (hphase : w.feed.phase = .starting) :
      Leg w [.connect] { w with session := none, feed := w.feed.connect w.service }
  | ask (hphase : w.feed.phase = .waiting) (hexit : w.feed.exit? = none) (hsession : w.session = none) :
      Leg w [] w.openSession
  | item {item : StreamItem} {rest : List StreamItem} {staysOpen : Bool} (hphase : w.feed.phase = .waiting)
      (hexit : w.feed.exit? = none) (hsession : w.session = some (item :: rest, staysOpen)) :
      Leg w [.yield item] { w with session := some (rest, staysOpen), feed := w.feed.take w.service item }

variable {start w v : World} {actions more : List Action}

theorem leg_of_act {action : Action} (hitem : action.item? = none) (hconnect : action.isConnect = false)
    (h : w.act action = some v) : w.Leg [action] v := by
  obtain ⟨f, hstep, rfl⟩ := act_eq_some_iff.mp h
  exact .act hstep hitem hconnect

theorem leg_of_next {action : Action} (hitem : action.item? = none) (hconnect : action.isConnect = false)
    (hnext : w.next = (w, some action)) (h : w.advance? = some v) : w.Leg w.next.2.toList v := by
  rw [advance?, hnext] at h
  rw [hnext]
  exact leg_of_act hitem hconnect h

theorem leg_of_exit (hwaiting : w.feed.isWaiting = true) {exit : Exit} (hexit : w.feed.exit? = some exit)
    (h : w.advance? = some v) : w.Leg w.next.2.toList v := by
  have hnext : w.next = (w, some .stop) := by
    cases hphase : w.feed.phase <;> simp [Feed.isWaiting, hphase] at hwaiting <;> simp only [next, hphase, hexit]
  exact leg_of_next rfl rfl hnext h

theorem leg_of_nextOfSession (hphase : w.feed.phase = .waiting) (hexit : w.feed.exit? = none)
    (h : w.advance? = some v) : w.Leg w.next.2.toList v := by
  have hnext := next_of_waiting hexit hphase
  rcases hsession : w.session with _ | ⟨_ | ⟨item, rest⟩, _ | _⟩
  case none =>
    obtain rfl := Option.some.inj ((advance?_of_no_session hexit hphase hsession).symm.trans h)
    simp only [nextOfSession, hsession] at hnext
    rw [hnext]
    exact .ask hphase hexit hsession
  case some.nil.false =>
    simp only [nextOfSession, hsession] at hnext
    exact leg_of_next rfl rfl hnext h
  case some.nil.true =>
    rw [advance?_of_silence hexit hphase hsession] at h
    cases h
  all_goals
    obtain rfl := Option.some.inj ((advance?_of_item hexit hphase hsession).symm.trans h)
    simp only [nextOfSession, hsession] at hnext
    rw [hnext]
    exact .item hphase hexit hsession

theorem leg_of_advance (h : w.advance? = some v) : w.Leg w.next.2.toList v := by
  cases hphase : w.feed.phase with
  | starting =>
      obtain rfl := Option.some.inj ((advance?_of_starting hphase).symm.trans h)
      have hnext : w.next.2 = some .connect := by simp only [next, hphase]
      rw [hnext]
      exact .begin hphase
  | finished exit =>
      have hnext : w.next = (w, none) := by simp only [next, hphase]
      rw [advance?, hnext] at h
      cases hsession : w.session <;> simp [hsession] at h
  | waiting =>
      cases hexit : w.feed.exit? with
      | none => exact leg_of_nextOfSession hphase hexit h
      | some exit => exact leg_of_exit (by rw [Feed.isWaiting, hphase]) hexit h
  | delivering head =>
      cases hexit : w.feed.exit? with
      | none =>
          have hnext : w.next = (w, some .send) := by simp only [next, hphase, hexit]
          exact leg_of_next rfl rfl hnext h
      | some exit => exact leg_of_exit (by rw [Feed.isWaiting, hphase]) hexit h
  | pausing =>
      cases hexit : w.feed.exit? with
      | none =>
          rw [advance?_of_pausing hexit hphase] at h
          cases h
      | some exit => exact leg_of_exit (by rw [Feed.isWaiting, hphase]) hexit h

theorem Follows.leg (h : w.Follows more v) : w.Leg more v := by
  cases h with
  | advance hadvance => exact leg_of_advance hadvance
  | @outside action v houtside hact =>
      rcases houtside with hown | rfl
      · cases action with
        | cancel => exact leg_of_act rfl rfl hact
        | dropReceiver => exact leg_of_act rfl rfl hact
        | receive => exact leg_of_act rfl rfl hact
        | _ => cases hown
      · exact leg_of_act rfl rfl hact

/-! ### The service along a course -/

@[simp] theorem feed_openSession (w : World) : w.openSession.feed = w.feed := by
  rw [openSession]
  split <;> rfl

@[simp] theorem service_openSession (w : World) : w.openSession.service = w.service := by
  rw [openSession]
  split <;> rfl

theorem Leg.service_eq (h : w.Leg more v) : v.service = w.service := by
  cases h with
  | act => rfl
  | begin => rfl
  | ask => exact service_openSession w
  | item => rfl

theorem Leg.run?_eq (h : w.Leg more v) : w.feed.run? w.service more = some v.feed := by
  cases h with
  | act hstep => exact Feed.run?_singleton.mpr hstep
  | begin hphase => exact Feed.run?_singleton.mpr (.connect hphase)
  | ask => rw [feed_openSession, Feed.run?]
  | item hphase hexit => exact Feed.run?_singleton.mpr (.yield _ hphase hexit)

theorem Course.service_eq (h : start.Course actions w) : w.service = start.service := by
  induction h with
  | here => rfl
  | on _ hnext ih => exact hnext.leg.service_eq.trans ih

/-- The actions of a course are a run of the service. -/
theorem Course.run?_eq (h : start.Course actions w) : start.feed.run? start.service actions = some w.feed := by
  induction h with
  | here => rfl
  | on hcourse hnext ih =>
      rw [Feed.run?_append, ih, ← hcourse.service_eq]
      exact hnext.leg.run?_eq

/-! ### Settling -/

/-- Where nothing can go on, nothing changes. -/
theorem fst_next_of_advance? (h : w.advance? = none) : w.next.1 = w := by
  have hsession (hphase : w.feed.phase = .waiting) (hexit : w.feed.exit? = none) : w.next.1 = w := by
    rcases hsession : w.session with _ | ⟨_ | ⟨item, rest⟩, _ | _⟩
    case some.nil.false => rw [next_of_waiting hexit hphase, nextOfSession, hsession]
    case some.nil.true => rw [next_of_waiting hexit hphase, nextOfSession, hsession]
    case none => exact absurd (h.symm.trans (advance?_of_no_session hexit hphase hsession)) (by simp)
    all_goals exact absurd (h.symm.trans (advance?_of_item hexit hphase hsession)) (by simp)
  cases hphase : w.feed.phase with
  | starting => exact absurd (h.symm.trans (advance?_of_starting hphase)) (by simp)
  | finished exit => simp only [next, hphase]
  | waiting =>
      cases hexit : w.feed.exit? with
      | none => exact hsession hphase hexit
      | some exit => simp only [next, hphase, hexit]
  | delivering head => cases hexit : w.feed.exit? <;> simp only [next, hphase, hexit]
  | pausing => cases hexit : w.feed.exit? <;> simp only [next, hphase, hexit]

/-- Where a world settles is on a course of it. -/
theorem Course.exists_settle (h : start.Course actions w) (fuel : Nat) :
    ∃ more, start.Course more (settle fuel w) := by
  induction fuel generalizing actions w with
  | zero => exact ⟨actions, h⟩
  | succ fuel ih =>
      rw [settle_eq]
      cases hadvance : w.advance? with
      | none =>
          rw [fst_next_of_advance? hadvance]
          exact ⟨actions, h⟩
      | some v => exact ih (.on h (.advance hadvance))

end World

end ChainHead
