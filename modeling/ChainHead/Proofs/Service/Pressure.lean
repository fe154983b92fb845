import ChainHead.Proofs.Service.Course
import ChainHead.Proofs.Service.Ending

/-! How far a service reads ahead of its listener. The channel never holds more than it has room for. A service that
holds a head does nothing but wait for room: it reads nothing, begins no session and does not pause. Of the sessions
that were begun all are over but the one that the service follows, and none is left while it pauses. So the heads that
were read are ahead of those that were received by what fits in the channel and one head more. -/

namespace ChainHead

namespace Feed

/-- What an action meets: the state that it is done in, and the action itself. -/
def moments (s : Service) (f : Feed) (actions : List Action) : List (Feed × Action) :=
  f.along s (fun g action => [(g, action)]) actions

/-- Whether a session begins with an action: there is a place to ask at. -/
def begins (s : Service) (moment : Feed × Action) : Bool :=
  moment.2.isConnect && (Stream.target s.url).isOk

/-- Whether a session is over with an action: it was closed or broke off, or the service has ended. -/
def isOver (moment : Feed × Action) : Bool :=
  match moment.2 with
  | .close => true
  | .yield (.failed error) => !error.isSkippable
  | .stop => moment.1.inSession
  | _ => false

/-- How many sessions were begun in a run. -/
def begun (s : Service) (f : Feed) (actions : List Action) : Nat := (f.moments s actions).countP (begins s)

/-- How many sessions were over in a run. -/
def ended (s : Service) (f : Feed) (actions : List Action) : Nat := (f.moments s actions).countP isOver

variable {s : Service} {f g : Feed} {action : Action} {actions : List Action} {room : Nat}

/-! ### The channel -/

theorem Step.channel_length_le (h : Step s f action g) (hf : f.channel.length ≤ f.capacity) :
    g.channel.length ≤ g.capacity := by
  rw [h.capacity_eq]
  cases h with
  | receive hchannel =>
      rw [hchannel, List.length_cons] at hf
      exact Nat.le_of_succ_le hf
  | connect => rwa [channel_connect]
  | yield item => rwa [channel_take]
  | send _ _ hroom =>
      rw [List.length_append, List.length_singleton]
      exact hroom
  | _ => exact hf

theorem channel_length_le (h : (fresh room).run? s actions = some f) : f.channel.length ≤ room := by
  have hstart : (fresh room).channel.length ≤ (fresh room).capacity ∧ (fresh room).capacity = room :=
    ⟨Nat.zero_le room, rfl⟩
  obtain ⟨hlength, hcapacity⟩ :=
    run?_induction (P := fun _ f => f.channel.length ≤ f.capacity ∧ f.capacity = room) hstart
      (fun _ _ _ _ _ hstep ih => ⟨hstep.channel_length_le ih.1, hstep.capacity_eq.trans ih.2⟩) actions h
  exact hcapacity ▸ hlength

/-! ### Holding a head -/

/-- The heads that were read are those that entered the channel, and one more at most: as long as the service has not
ended, the one that it holds. -/
theorem read_eq (h : (fresh room).run? s actions = some f) :
    (headsOf (sessionsOf actions)).length ≤ ((fresh room).entered s actions).length + 1 ∧
      (¬f.IsFinished → headsOf (sessionsOf actions) = (fresh room).entered s actions ++ f.held?.toList) := by
  have hbalanced := balanced_of_run? h
  have hread : headsOf (sessionsOf actions) = (actions.filterMap Action.item?).filterMap StreamItem.head? := by
    rw [headsOf_eq, flatten_sessionsOf (item?_eq_none_of_inSession rfl h)]
  rw [hread]
  refine ⟨hbalanced.prefix_and_length.2, fun hopen => ?_⟩
  have hlost : (fresh room).lost s actions = [] := hbalanced.unspent.resolve_right fun hlost => hopen hlost.2
  rw [hbalanced.account, hlost, List.append_nil]

/-- A service that holds a head waits for room or ends. -/
theorem Step.of_delivering {head : HeadEvent} (h : Step s f action g) (hphase : f.phase = .delivering head) :
    (action.isOwn = false ∨ action = .send ∨ action = .stop) ∧ g.phase ≠ .starting ∧ g.phase ≠ .pausing := by
  cases h with
  | cancel => exact ⟨.inl rfl, by simp [hphase], by simp [hphase]⟩
  | dropReceiver => exact ⟨.inl rfl, by simp [hphase], by simp [hphase]⟩
  | receive => exact ⟨.inl rfl, by simp [hphase], by simp [hphase]⟩
  | connect hstarting => cases hphase.symm.trans hstarting
  | yield item hwaiting => cases hphase.symm.trans hwaiting
  | close hwaiting => cases hphase.symm.trans hwaiting
  | send => exact ⟨.inr (.inl rfl), by simp, by simp⟩
  | wake hpausing => cases hphase.symm.trans hpausing
  | stop => exact ⟨.inr (.inr rfl), by simp [finish], by simp [finish]⟩

/-! ### Sessions that are alive -/

theorem inSession_connect (f : Feed) : (f.connect s).inSession = (Stream.target s.url).isOk := by
  rw [connect]
  cases Stream.target s.url <;> rfl

theorem inSession_take (hphase : f.phase = .waiting) (item : StreamItem) :
    (f.take s item).inSession = !isOver (f, .yield item) := by
  cases item with
  | connected => simp [take, note, inSession, isOver, hphase]
  | head event => rfl
  | failed error =>
      rw [take, isOver]
      split_ifs with hskip
      · simp [note, inSession, hphase, hskip]
      · simp [pause, inSession, hskip]

/-- What was alive and what begins is what is over and what is alive afterwards. -/
theorem Step.inSession_eq (h : Step s f action g) :
    f.inSession.toNat + (begins s (f, action)).toNat = (isOver (f, action)).toNat + g.inSession.toNat := by
  cases h with
  | cancel => exact (Nat.zero_add _).symm
  | dropReceiver => exact (Nat.zero_add _).symm
  | receive => exact (Nat.zero_add _).symm
  | connect hphase =>
      have hbefore : f.inSession = false := by rw [inSession, hphase]
      have hbegins : begins s (f, .connect) = (Stream.target s.url).isOk := rfl
      rw [hbefore, hbegins, inSession_connect]
      rfl
  | yield item hphase =>
      have hbefore : f.inSession = true := by rw [inSession, hphase]
      have hbegins : begins s (f, .yield item) = false := rfl
      rw [hbefore, hbegins, inSession_take hphase]
      cases isOver (f, .yield item) <;> rfl
  | close hphase =>
      have hbefore : f.inSession = true := by rw [inSession, hphase]
      rw [hbefore]
      rfl
  | send hphase =>
      have hbefore : f.inSession = true := by rw [inSession, hphase]
      rw [hbefore]
      rfl
  | wake hphase =>
      have hbefore : f.inSession = false := by rw [inSession, hphase]
      rw [hbefore]
      rfl
  | stop => exact Nat.add_zero _

theorem countP_moments_snoc {p : Feed × Action → Bool} {start : Feed} {front : List Action}
    (h : start.run? s front = some f) (action : Action) :
    (start.moments s (front ++ [action])).countP p = (start.moments s front).countP p + (p (f, action)).toNat := by
  rw [moments, along_snoc h, List.countP_append, List.countP_singleton]
  cases p (f, action) <;> rfl

/-- Of the sessions that were begun, all are over but the one that the service follows. -/
theorem begun_eq (h : (fresh room).run? s actions = some f) :
    (fresh room).begun s actions = (fresh room).ended s actions + f.inSession.toNat := by
  refine run?_induction
    (P := fun actions f => (fresh room).begun s actions = (fresh room).ended s actions + f.inSession.toNat) rfl
    (fun front e action g hrun hstep ih => ?_) actions h
  have hstep := hstep.inSession_eq
  rw [begun, ended, countP_moments_snoc hrun, countP_moments_snoc hrun, ← begun, ← ended, ih]
  omega

end Feed

namespace World

variable {w v : World} {more : List Action}

/-- Unless its service waits for a session, or begins one, nothing is read in a world and nothing is asked for. -/
theorem Follows.quiet (h : w.Follows more v) (hwaiting : w.feed.phase ≠ .waiting)
    (hstarting : w.feed.phase ≠ .starting) :
    v.session = w.session ∧ v.network = w.network ∧ v.requests = w.requests := by
  cases h.leg with
  | act => exact ⟨rfl, rfl, rfl⟩
  | begin hphase => exact absurd hphase hstarting
  | ask hphase => exact absurd hphase hwaiting
  | item hphase => exact absurd hphase hwaiting

end World

/-- Over any run, the channel holds no more than it has room for, and the heads that were read are those that entered
the channel, and at most the one that the service holds. While it holds one, it neither begins a session nor pauses, and
nothing is read or asked for; nor is anything while it pauses. One session at most is alive, and none in a pause. So the
heads that were read are no more than those that were received, what fits in the channel, and one. -/
theorem reading_keeps_pace (s : Service) (room : Nat) (actions : List Action) (f : Feed)
    (h : (Feed.fresh room).run? s actions = some f) :
    let read := headsOf (sessionsOf actions)
    let entered := (Feed.fresh room).entered s actions
    let received := (Feed.fresh room).received s actions
    f.channel.length ≤ room ∧
      (read.length ≤ entered.length + 1 ∧ (¬f.IsFinished → read = entered ++ f.held?.toList)) ∧
      (∀ head, f.held? = some head →
        (∀ action g, f.step? s action = some g →
          (action.isOwn = false ∨ action = .send ∨ action = .stop) ∧ g.phase ≠ .starting ∧ g.phase ≠ .pausing) ∧
        ∀ w more v, w.feed = f → World.Follows w more v →
          v.session = w.session ∧ v.network = w.network ∧ v.requests = w.requests) ∧
      ((Feed.fresh room).begun s actions = (Feed.fresh room).ended s actions + f.inSession.toNat ∧
        (f.phase = .pausing → (Feed.fresh room).begun s actions = (Feed.fresh room).ended s actions ∧
          ∀ w more v, w.feed = f → World.Follows w more v →
            v.session = w.session ∧ v.network = w.network ∧ v.requests = w.requests)) ∧
      read.length ≤ received.length + room + 1 := by
  intro read entered received
  obtain ⟨hlength, hheld⟩ := Feed.read_eq h
  have hroom := Feed.channel_length_le h
  have hbegun := Feed.begun_eq h
  refine ⟨hroom, ⟨hlength, hheld⟩, fun head hhead => ?_, ⟨hbegun, fun hphase => ⟨?_, fun w more v hfeed hnext => ?_⟩⟩,
    ?_⟩
  · have hphase := Feed.phase_of_held? hhead
    refine ⟨fun action g hstep => (Feed.Step.of_step? hstep).of_delivering hphase, fun w more v hfeed hnext => ?_⟩
    exact hnext.quiet (by simp [hfeed, hphase]) (by simp [hfeed, hphase])
  · rw [hbegun, Feed.inSession, hphase]
    rfl
  · exact hnext.quiet (by simp [hfeed, hphase]) (by simp [hfeed, hphase])
  · have hchannel : received.length + f.channel.length = entered.length := by
      rw [← List.length_append, (Feed.balanced_of_run? h).channel_eq]
    calc read.length ≤ entered.length + 1 := hlength
      _ = received.length + f.channel.length + 1 := by rw [hchannel]
      _ ≤ received.length + room + 1 := by omega

/-- Two heads are read and none is received: the first one stands in the channel, and the second one is held. -/
def Action.readingAhead : List Action :=
  [.connect, .yield .connected, .yield (.head ⟨7, "0x07", "0x70"⟩), .send, .yield (.head ⟨8, "0x08", "0x80"⟩)]

theorem reading_keeps_pace_readingAhead :
    ∃ f, (Feed.fresh 1).run? .atLocalhost Action.readingAhead = some f ∧
      f.held? = some ⟨8, "0x08", "0x80"⟩ ∧ (headsOf (sessionsOf Action.readingAhead)).length = 2 ∧
      (∀ action g, f.step? .atLocalhost action = some g →
        (action.isOwn = false ∨ action = .send ∨ action = .stop) ∧ g.phase ≠ .starting ∧ g.phase ≠ .pausing) ∧
      (Feed.fresh 1).begun .atLocalhost Action.readingAhead =
        (Feed.fresh 1).ended .atLocalhost Action.readingAhead + 1 := by
  have hpossible : ((Feed.fresh 1).run? .atLocalhost Action.readingAhead).any
      (fun f => f.held? = some ⟨8, "0x08", "0x80"⟩ ∧ f.inSession) = true := by decide +kernel
  obtain ⟨f, hrun, hstate⟩ := (Option.any_eq_true _ _).mp hpossible
  obtain ⟨hheld, hsession⟩ := of_decide_eq_true hstate
  obtain ⟨-, -, hholding, ⟨hbegun, -⟩, -⟩ := reading_keeps_pace .atLocalhost 1 Action.readingAhead f hrun
  rw [hsession] at hbegun
  exact ⟨f, hrun, hheld, by decide +kernel, (hholding _ hheld).1, hbegun⟩

end ChainHead
