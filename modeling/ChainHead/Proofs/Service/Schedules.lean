import ChainHead.Proofs.Service.Echoes
import ChainHead.Proofs.Service.Timeline

/-! What shows of a service in a network over time. A schedule says in which order time passes, the service goes on,
its pause ends, its listener receives or leaves, and the end is called for; with the network it determines all that
happens. A service that echoes another one shows the same under every schedule, but for the change of its log. -/

namespace ChainHead

/-- What happens next under a schedule. Times are in milliseconds. -/
inductive Moment where
  | pass (time : Nat)
  | move (move : Move)
  | dropReceiver
  | cancel
deriving DecidableEq

/-- A world over time with its listener, and the time at which the service began to pause if it pauses. -/
structure Watch where
  reception : Reception
  now : Nat := 0
  pausedAt : Nat := 0

/-- What shows of a service: what it has asked for, the heads that its listener has received and those that wait for
it, what the service does, and its log. -/
structure Shown where
  requests : List Http.Target
  heard : List HeadEvent
  channel : List HeadEvent
  phase : Phase
  log : List LogEntry
deriving DecidableEq

namespace Watch

/-- A service that is about to begin in a network, with a channel of the given room. -/
def start (s : Service) (room : Nat) (network : Stream.Network) : Watch where
  reception := { world := { service := s, feed := Feed.fresh room, started := true, network } }

def world (w : Watch) : World := w.reception.world

def clocked (w : Watch) : Clocked := ⟨w.world.feed, w.now, w.pausedAt⟩

def goTo (w : Watch) (r : Reception) : Watch :=
  { w with reception := r, pausedAt := (w.clocked.goTo r.world.feed).pausedAt }

/-- What somebody outside does to the service. -/
def act? (w : Watch) (action : Action) : Option Watch :=
  (w.world.act action).map fun v => w.goTo { w.reception with world := v }

/-- What happens in a moment, if it is possible. A pause is not over before the delay has passed. -/
def step? (w : Watch) : Moment → Option Watch
  | .pass time => some { w with now := w.now + time }
  | .move move =>
    if move = .wake ∧ w.now < w.pausedAt + w.world.service.reconnectDelay.toNat then none
    else (w.reception.move? move).map w.goTo
  | .dropReceiver => w.act? .dropReceiver
  | .cancel => w.act? .cancel

/-- What happens under a schedule, if all of it is possible. -/
def run? (w : Watch) : List Moment → Option Watch
  | [] => some w
  | moment :: rest => (w.step? moment).bind fun v => v.run? rest

def shown (w : Watch) : Shown where
  requests := w.world.requests
  heard := w.reception.heard
  channel := w.world.feed.channel
  phase := w.world.feed.phase
  log := w.world.feed.log

end Watch

/-- What shows of a service under a schedule, if all of it is possible. -/
def Service.shown? (s : Service) (room : Nat) (network : Stream.Network) (schedule : List Moment) : Option Shown :=
  ((Watch.start s room network).run? schedule).map Watch.shown

def Shown.changed (change : LogEntry → LogEntry) (o : Shown) : Shown := { o with log := o.log.map change }

/-! ### Echoes -/

variable {change : LogEntry → LogEntry} {t : Service}

def Reception.echoed (t : Service) (change : LogEntry → LogEntry) (r : Reception) : Reception :=
  { r with world := r.world.echoed t change }

theorem Reception.move?_echoed {r : Reception} (h : t.Echoes change r.world.service) (move : Move) :
    (r.echoed t change).move? move = (r.move? move).map (echoed t change) := by
  cases move with
  | advance =>
      rw [move?, move?, echoed, World.advance?_echoed h]
      cases r.world.advance? <;> rfl
  | wake =>
      rw [move?, move?, echoed, World.act_echoed h]
      cases r.world.act .wake <;> rfl
  | receive =>
      rw [move?, move?, echoed, World.act_echoed h]
      cases r.world.act .receive <;> rfl

namespace Watch

def echoed (t : Service) (change : LogEntry → LogEntry) (w : Watch) : Watch :=
  { w with reception := w.reception.echoed t change }

variable {w v : Watch} {moment : Moment}

theorem act?_echoed (h : t.Echoes change w.world.service) (action : Action) :
    (w.echoed t change).act? action = (w.act? action).map (echoed t change) := by
  show ((w.world.echoed t change).act action).map _ = _
  rw [World.act_echoed h, act?]
  cases w.world.act action <;> rfl

/-- Both services come to the same, or neither of them can go on in this way. -/
theorem step?_echoed (h : t.Echoes change w.world.service) (moment : Moment) :
    (w.echoed t change).step? moment = (w.step? moment).map (echoed t change) := by
  cases moment with
  | pass time => rfl
  | dropReceiver => exact act?_echoed h .dropReceiver
  | cancel => exact act?_echoed h .cancel
  | move move =>
      have hdelay : (w.echoed t change).world.service.reconnectDelay = w.world.service.reconnectDelay := h.delay_eq
      have hmove : (w.echoed t change).reception.move? move =
          (w.reception.move? move).map (Reception.echoed t change) := Reception.move?_echoed h move
      have hnow : (w.echoed t change).now = w.now := rfl
      have hpausedAt : (w.echoed t change).pausedAt = w.pausedAt := rfl
      rw [step?, step?, hnow, hpausedAt, hdelay, hmove]
      split_ifs
      · rfl
      · cases w.reception.move? move <;> rfl

/-- A moment leaves the world as it is, or takes it on by its course. -/
theorem follows_of_step? (h : w.step? moment = some v) :
    v.world = w.world ∨ ∃ more, w.world.Follows more v.world := by
  have houtside {action : Action} (hown : action.isOwn = false) (hact : w.act? action = some v) :
      ∃ more, w.world.Follows more v.world := by
    obtain ⟨u, hu, rfl⟩ := Option.map_eq_some_iff.mp hact
    exact ⟨_, .outside (.inl hown) hu⟩
  cases moment with
  | pass time =>
      cases h
      exact .inl rfl
  | dropReceiver => exact .inr (houtside rfl h)
  | cancel => exact .inr (houtside rfl h)
  | move move =>
      rw [step?] at h
      split_ifs at h
      obtain ⟨r, hmove, rfl⟩ := Option.map_eq_some_iff.mp h
      right
      cases move with
      | advance =>
          obtain ⟨u, hadvance, rfl⟩ := Option.map_eq_some_iff.mp hmove
          exact ⟨_, .advance hadvance⟩
      | wake =>
          obtain ⟨u, hact, rfl⟩ := Option.map_eq_some_iff.mp hmove
          exact ⟨_, .outside (.inr rfl) hact⟩
      | receive =>
          obtain ⟨u, hact, rfl⟩ := Option.map_eq_some_iff.mp hmove
          exact ⟨_, .outside (.inl rfl) hact⟩

theorem service_of_step? (h : w.step? moment = some v) : v.world.service = w.world.service := by
  rcases follows_of_step? h with hsame | ⟨more, hfollows⟩
  · rw [hsame]
  · exact hfollows.leg.service_eq

theorem run?_echoed (h : t.Echoes change w.world.service) (schedule : List Moment) :
    (w.echoed t change).run? schedule = (w.run? schedule).map (echoed t change) := by
  induction schedule generalizing w with
  | nil => rfl
  | cons moment rest ih =>
      rw [run?, run?, step?_echoed h]
      cases hstep : w.step? moment with
      | none => rfl
      | some v => exact ih ((service_of_step? hstep).symm ▸ h)

end Watch

/-- Under every schedule, whatever the network brings, an echo shows the same but for its log. -/
theorem Service.Echoes.shown?_eq {s : Service} (h : t.Echoes change s) (room : Nat) (network : Stream.Network)
    (schedule : List Moment) :
    t.shown? room network schedule = (s.shown? room network schedule).map (Shown.changed change) := by
  have hstart : Watch.start t room network = (Watch.start s room network).echoed t change := rfl
  rw [shown?, hstart, Watch.run?_echoed h, shown?, Option.map_map, Option.map_map]
  rfl

end ChainHead
