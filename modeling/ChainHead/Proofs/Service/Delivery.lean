import ChainHead.Proofs.Service.Steps
import ChainHead.Text.Cut

/-! What becomes of the heads that sessions yield. Each of them enters the channel, in the order in which it
was yielded, or is the one that the service holds, or was given up when the service ended. The channel gives
out what entered it, in the same order. The account is kept over any interleaving of the listener, of whoever
ends the service, of the sessions and of the service itself. -/

namespace ChainHead

/-- What a session yields with an action. -/
def Action.item? : Action → Option StreamItem
  | .yield item => some item
  | _ => none

def Action.isConnect (action : Action) : Bool := action = .connect

/-- What each session yields in a run, session by session. Nothing is yielded before the first one begins. -/
def sessionsOf (actions : List Action) : List (List StreamItem) :=
  (Cut.pieces Action.isConnect actions).tail.map (·.filterMap Action.item?)

/-- The heads that sessions yield, in the order of the sessions and within each of them. -/
def headsOf (sessions : List (List StreamItem)) : List HeadEvent :=
  sessions.flatMap (·.filterMap StreamItem.head?)

namespace Feed

/-- The head that the service holds until there is room for it. -/
def held? (f : Feed) : Option HeadEvent :=
  match f.phase with
  | .delivering head => some head
  | _ => none

/-- Whether a session has begun and is not yet over. -/
def inSession (f : Feed) : Bool :=
  match f.phase with
  | .waiting | .delivering _ => true
  | .starting | .pausing | .finished _ => false

/-- What an action puts into the channel. -/
def entering (f : Feed) : Action → List HeadEvent
  | .send => f.held?.toList
  | _ => []

/-- What an action takes out of the channel. -/
def leaving (f : Feed) : Action → List HeadEvent
  | .receive => f.channel.head?.toList
  | _ => []

def losing (f : Feed) : Action → List HeadEvent
  | .stop => f.held?.toList
  | _ => []

/-- The heads that entered the channel in a run. -/
def entered (s : Service) (f : Feed) (actions : List Action) : List HeadEvent := f.along s entering actions

/-- The heads that the listener received in a run. -/
def received (s : Service) (f : Feed) (actions : List Action) : List HeadEvent := f.along s leaving actions

/-- The heads that were given up in a run. -/
def lost (s : Service) (f : Feed) (actions : List Action) : List HeadEvent := f.along s losing actions

def IsFinished (f : Feed) : Prop := ∃ exit, f.phase = .finished exit

end Feed

/-! ### Sessions of a run -/

theorem Action.item?_of_isConnect {action : Action} (h : action.isConnect = true) : action.item? = none := by
  rw [isConnect, decide_eq_true_eq] at h
  rw [h]
  rfl

theorem flatten_sessionsOf {actions : List Action}
    (h : ∀ action ∈ actions.takeWhile (!Action.isConnect ·), action.item? = none) :
    (sessionsOf actions).flatten = actions.filterMap Action.item? := by
  obtain ⟨piece, more, hpieces⟩ := List.exists_cons_of_ne_nil (Cut.pieces_ne_nil Action.isConnect actions)
  have hflat := Cut.flatten_pieces Action.isConnect actions
  have hhead := Cut.head?_pieces Action.isConnect actions
  rw [hpieces, List.head?_cons, Option.some.injEq] at hhead
  have hpiece : piece.filterMap Action.item? = [] := by
    rw [List.filterMap_eq_nil_iff, hhead]
    exact h
  have hfilter : (actions.filter (!Action.isConnect ·)).filterMap Action.item?
      = actions.filterMap Action.item? := by
    rw [List.filterMap_filter]
    congr 1
    funext action
    by_cases hconnect : action.isConnect = true
    · simp [hconnect, Action.item?_of_isConnect hconnect]
    · simp [hconnect]
  rw [← hfilter, ← hflat, hpieces, List.flatten_cons, List.filterMap_append, hpiece, List.nil_append,
    sessionsOf, hpieces, List.tail_cons, List.filterMap_flatten]

theorem sessionsOf_connect (actions : List Action) :
    sessionsOf (actions ++ [.connect]) = sessionsOf actions ++ [[]] := by
  rw [sessionsOf, Cut.pieces_snoc_of_break rfl, List.tail_append_of_ne_nil (Cut.pieces_ne_nil _ actions),
    List.map_append]
  rfl

theorem sessionsOf_of_item?_eq_none {action : Action} (hitem : action.item? = none)
    (hconnect : action.isConnect = false) (actions : List Action) :
    sessionsOf (actions ++ [action]) = sessionsOf actions := by
  obtain ⟨front, last, hpieces⟩ := Cut.exists_pieces_eq Action.isConnect actions
  rw [sessionsOf, Cut.pieces_snoc hconnect hpieces, sessionsOf, hpieces]
  cases front <;> simp [hitem]

/-- What is yielded belongs to the session that began last. -/
theorem sessionsOf_snoc {actions : List Action} {front : List (List StreamItem)} {items : List StreamItem}
    (h : sessionsOf actions = front ++ [items]) {action : Action} (hconnect : action.isConnect = false) :
    sessionsOf (actions ++ [action]) = front ++ [items ++ action.item?.toList] := by
  obtain ⟨pieces, last, hpieces⟩ := Cut.exists_pieces_eq Action.isConnect actions
  rw [sessionsOf, hpieces] at h
  rw [sessionsOf, Cut.pieces_snoc hconnect hpieces]
  cases pieces with
  | nil => simp at h
  | cons first pieces =>
      rw [List.cons_append, List.tail_cons, List.map_append] at h ⊢
      obtain ⟨rfl, hitems⟩ := List.append_inj' h rfl
      rw [← List.singleton_inj.mp hitems]
      cases hitem : action.item? <;> simp [hitem]

theorem headsOf_eq (sessions : List (List StreamItem)) :
    headsOf sessions = sessions.flatten.filterMap StreamItem.head? := by
  rw [headsOf, List.filterMap_flatten, List.flatMap]

namespace Feed

variable {s : Service} {f g : Feed} {action : Action} {actions : List Action}

/-- Between two sessions nothing is yielded until the next one begins. -/
theorem Step.of_inSession_eq_false (h : Step s f action g) (hf : f.inSession = false)
    (hconnect : action.isConnect = false) : action.item? = none ∧ g.inSession = false := by
  cases h with
  | cancel => exact ⟨rfl, hf⟩
  | dropReceiver => exact ⟨rfl, hf⟩
  | receive => exact ⟨rfl, hf⟩
  | connect => cases hconnect
  | yield item hwaiting => simp [inSession, hwaiting] at hf
  | close hwaiting => simp [inSession, hwaiting] at hf
  | send hdelivering => simp [inSession, hdelivering] at hf
  | wake => exact ⟨rfl, rfl⟩
  | stop => exact ⟨rfl, rfl⟩

theorem item?_eq_none_of_inSession (hf : f.inSession = false) (h : f.run? s actions = some g) :
    ∀ action ∈ actions.takeWhile (!Action.isConnect ·), action.item? = none := by
  induction actions generalizing f with
  | nil => simp
  | cons action rest ih =>
      obtain ⟨e, hstep, hrun⟩ := Option.bind_eq_some_iff.mp h
      intro before hbefore
      cases hconnect : action.isConnect with
      | true => simp [hconnect] at hbefore
      | false =>
          obtain ⟨hitem, he⟩ := (Step.of_step? hstep).of_inSession_eq_false hf hconnect
          rw [List.takeWhile_cons_of_pos (by simp [hconnect]), List.mem_cons] at hbefore
          rcases hbefore with rfl | hbefore
          · exact hitem
          · exact ih he hrun before hbefore

/-! ### The account of one step -/

theorem held?_length_le (f : Feed) : f.held?.toList.length ≤ 1 := by
  cases f.held? <;> simp

theorem held?_eq_some {head : HeadEvent} (hphase : f.phase = .delivering head) : f.held? = some head := by
  rw [held?, hphase]

theorem phase_of_held? {head : HeadEvent} (h : f.held? = some head) : f.phase = .delivering head := by
  rw [held?] at h
  split at h
  · rename_i event heq
    rw [heq, Option.some.inj h]
  · cases h

theorem held?_eq_none (hphase : ∀ head, f.phase ≠ .delivering head) : f.held? = none := by
  rw [held?]
  split
  · rename_i head heq
    exact absurd heq (hphase head)
  · rfl

theorem held?_connect (f : Feed) : (f.connect s).held? = none := by
  rw [connect]
  cases Stream.target s.url <;> rfl

theorem held?_take (item : StreamItem) (hphase : f.phase = .waiting) : (f.take s item).held? = item.head? := by
  cases item with
  | connected => exact held?_eq_none (by simp [take, note, hphase])
  | head event => rfl
  | failed error =>
      rw [take]
      split
      · exact held?_eq_none (by simp [note, hphase])
      · rfl

theorem IsFinished.held?_eq_none (h : f.IsFinished) : f.held? = none := by
  obtain ⟨exit, hphase⟩ := h
  exact Feed.held?_eq_none (by simp [hphase])

/-- What stood in the channel and what enters it is what leaves it and what stands in it afterwards. -/
theorem Step.channel_eq (h : Step s f action g) :
    f.leaving action ++ g.channel = f.channel ++ f.entering action := by
  cases h with
  | cancel => simp [leaving, entering]
  | dropReceiver => simp [leaving, entering]
  | receive hchannel => simp [leaving, entering, hchannel]
  | connect => simp [leaving, entering]
  | yield => simp [leaving, entering]
  | close => simp [leaving, entering, pause, note]
  | send hphase => simp [leaving, entering, held?_eq_some hphase]
  | wake => simp [leaving, entering]
  | stop => simp [leaving, entering, finish, note]

/-- What the service held and what it takes over is what enters the channel, what it gives up, and what it
holds afterwards. -/
theorem Step.held?_eq (h : Step s f action g) :
    f.held?.toList ++ (action.item?.bind StreamItem.head?).toList
      = f.entering action ++ f.losing action ++ g.held?.toList := by
  cases h with
  | cancel => simp [entering, losing, Action.item?, held?]
  | dropReceiver => simp [entering, losing, Action.item?, held?]
  | receive => simp [entering, losing, Action.item?, held?]
  | connect hphase =>
      have hheld : f.held? = none := held?_eq_none (by simp [hphase])
      simp [entering, losing, Action.item?, hheld, held?_connect]
  | yield item hphase =>
      have hheld : f.held? = none := held?_eq_none (by simp [hphase])
      simp [entering, losing, Action.item?, hheld, held?_take item hphase]
  | close hphase =>
      have hheld : f.held? = none := held?_eq_none (by simp [hphase])
      have hpause : (f.pause s).held? = none := rfl
      simp [entering, losing, Action.item?, hheld, hpause]
  | @send head hphase =>
      have hsend : held? { f with phase := .waiting, channel := f.channel ++ [head] } = none := rfl
      simp [entering, losing, Action.item?, hsend]
  | wake hphase =>
      have hheld : f.held? = none := held?_eq_none (by simp [hphase])
      have hwake : held? { f with phase := .starting } = none := rfl
      simp [entering, losing, Action.item?, hheld, hwake]
  | @stop exit =>
      have hfinish : (f.finish s exit).held? = none := rfl
      simp [entering, losing, Action.item?, hfinish]

/-- Nothing is given up but by a step with which the service ends, and then one head at most. -/
theorem Step.of_losing (h : Step s f action g) (hlosing : f.losing action ≠ []) :
    (f.losing action).length = 1 ∧ g.IsFinished := by
  cases h with
  | @stop exit =>
      have hlength := f.held?_length_le
      have hpos := List.length_pos_iff.mpr hlosing
      simp only [losing] at hpos ⊢
      exact ⟨by omega, exit, rfl⟩
  | _ => simp [losing] at hlosing

/-- A service that has ended takes nothing over, and does not begin again. -/
theorem Step.of_isFinished (h : Step s f action g) (hf : f.IsFinished) : g.IsFinished ∧ action.item? = none := by
  obtain ⟨exit, hphase⟩ := hf
  cases h with
  | cancel => exact ⟨⟨exit, hphase⟩, rfl⟩
  | dropReceiver => exact ⟨⟨exit, hphase⟩, rfl⟩
  | receive => exact ⟨⟨exit, hphase⟩, rfl⟩
  | connect hstarting => simp [hphase] at hstarting
  | yield item hwaiting => simp [hphase] at hwaiting
  | close hwaiting => simp [hphase] at hwaiting
  | send hdelivering => simp [hphase] at hdelivering
  | wake hpausing => simp [hphase] at hpausing
  | stop hwaiting => simp [isWaiting, hphase] at hwaiting

theorem Step.idle_of_isFinished (h : Step s f action g) (hf : f.IsFinished) :
    f.entering action = [] ∧ f.losing action = [] ∧ g.held? = none := by
  have hheld := h.held?_eq
  rw [hf.held?_eq_none, (h.of_isFinished hf).2] at hheld
  have hnil : f.entering action ++ f.losing action ++ g.held?.toList = [] := hheld.symm
  simpa only [List.append_eq_nil_iff, Option.toList_eq_nil_iff, and_assoc] using hnil

/-! ### The account of a run -/

/-- What the service has taken over from its sessions is what has entered the channel, what was given up, and
what it holds; nothing is given up before the service ends, and then one head at most. -/
structure Balanced (s : Service) (start : Feed) (actions : List Action) (f : Feed) : Prop where
  channel_eq : start.received s actions ++ f.channel = start.entered s actions
  account : (actions.filterMap Action.item?).filterMap StreamItem.head?
    = start.entered s actions ++ start.lost s actions ++ f.held?.toList
  unspent : start.lost s actions = [] ∨ (start.lost s actions).length = 1 ∧ f.IsFinished

theorem balanced_nil (room : Nat) : Balanced s (fresh room) [] (fresh room) where
  channel_eq := rfl
  account := rfl
  unspent := .inl rfl

theorem Step.balanced {start : Feed} {front : List Action} (hrun : start.run? s front = some f)
    (hstep : Step s f action g) (h : Balanced s start front f) :
    Balanced s start (front ++ [action]) g := by
  have hentered : start.entered s (front ++ [action]) = start.entered s front ++ f.entering action :=
    along_snoc hrun
  have hreceived : start.received s (front ++ [action]) = start.received s front ++ f.leaving action :=
    along_snoc hrun
  have hlost : start.lost s (front ++ [action]) = start.lost s front ++ f.losing action :=
    along_snoc hrun
  have hitems : ((front ++ [action]).filterMap Action.item?).filterMap StreamItem.head?
      = (front.filterMap Action.item?).filterMap StreamItem.head?
        ++ (action.item?.bind StreamItem.head?).toList := by
    cases hitem : action.item? with
    | none => simp [hitem]
    | some item => cases hhead : item.head? <;> simp [hitem, hhead]
  obtain ⟨hchannel, haccount, hunspent⟩ := h
  have hheld := hstep.held?_eq
  refine ⟨?_, ?_, ?_⟩
  · rw [hreceived, hentered, List.append_assoc, hstep.channel_eq, ← List.append_assoc, hchannel]
  · rw [hitems, haccount, hentered, hlost]
    -- nothing was given up so far, or the service has ended and moves nothing any more
    rcases hunspent with hnone | ⟨_, hfinished⟩
    · rw [hnone, List.append_nil, List.nil_append, List.append_assoc, hheld]
      simp only [List.append_assoc]
    · obtain ⟨hentering, hlosing, hnone⟩ := hstep.idle_of_isFinished hfinished
      rw [hfinished.held?_eq_none, hentering, hlosing, hnone, (hstep.of_isFinished hfinished).2]
      simp
  · rw [hlost]
    rcases hunspent with hnone | ⟨hlength, hfinished⟩
    · rw [hnone, List.nil_append]
      by_cases hlosing : f.losing action = []
      · exact .inl hlosing
      · exact .inr (hstep.of_losing hlosing)
    · rw [(hstep.idle_of_isFinished hfinished).2.1, List.append_nil]
      exact .inr ⟨hlength, (hstep.of_isFinished hfinished).1⟩

theorem balanced_of_run? {room : Nat} (h : (fresh room).run? s actions = some f) :
    Balanced s (fresh room) actions f :=
  run?_induction (P := fun actions f => Balanced s (fresh room) actions f) (balanced_nil room)
    (fun _ _ _ _ hrun hstep hbalanced => hstep.balanced hrun hbalanced) actions h

theorem Balanced.prefix_and_length {start : Feed} (h : Balanced s start actions f) :
    start.entered s actions <+: (actions.filterMap Action.item?).filterMap StreamItem.head? ∧
      ((actions.filterMap Action.item?).filterMap StreamItem.head?).length
        ≤ (start.entered s actions).length + 1 := by
  rw [h.account, List.append_assoc]
  refine ⟨List.prefix_append _ _, ?_⟩
  rw [List.length_append, List.length_append]
  rcases h.unspent with hnone | ⟨hlength, hfinished⟩
  · have hheld := f.held?_length_le
    simp only [hnone, List.length_nil]
    omega
  · simp only [hlength, hfinished.held?_eq_none, Option.toList_none, List.length_nil]
    omega

/-- A head that is held stays held, or enters the channel behind all others, or is given up with the end of
the service. -/
theorem Step.of_held? {head : HeadEvent} (h : Step s f action g) (hheld : f.held? = some head) :
    g.held? = some head ∨ (action = .send ∧ g.channel = f.channel ++ [head]) ∨
      (action = .stop ∧ g.IsFinished) := by
  have hphase := phase_of_held? hheld
  cases h with
  | cancel => exact .inl hheld
  | dropReceiver => exact .inl hheld
  | receive => exact .inl hheld
  | connect hstarting => simp [hphase] at hstarting
  | yield item hwaiting => simp [hphase] at hwaiting
  | close hwaiting => simp [hphase] at hwaiting
  | send hdelivering =>
      rw [hphase, Phase.delivering.injEq] at hdelivering
      exact .inr (.inl ⟨rfl, by rw [hdelivering]⟩)
  | wake hpausing => simp [hphase] at hpausing
  | @stop exit => exact .inr (.inr ⟨rfl, exit, rfl⟩)

end Feed

/-- Whatever sessions yield and however the listener, whoever ends the service and the sessions act between
each other, the heads that have entered the channel are the first of those that were yielded, session by
session, and at most the last of these is missing: the one that the service holds, which is given up only by
a step that ends the service. The listener receives what entered the channel, in the same order. -/
theorem heads_enter_in_order (s : Service) (room : Nat) (actions : List Action) (f : Feed)
    (h : (Feed.fresh room).run? s actions = some f) :
    let yielded := headsOf (sessionsOf actions)
    let entered := (Feed.fresh room).entered s actions
    let lost := (Feed.fresh room).lost s actions
    (entered <+: yielded ∧ yielded.length ≤ entered.length + 1) ∧
      (Feed.fresh room).received s actions ++ f.channel = entered ∧
      yielded = entered ++ lost ++ f.held?.toList ∧ (¬f.IsFinished → lost = []) ∧
      ∀ action g head, f.step? s action = some g → f.held? = some head →
        g.held? = some head ∨ (action = .send ∧ g.channel = f.channel ++ [head]) ∨
          (action = .stop ∧ g.IsFinished) := by
  intro yielded entered lost
  have hyielded : yielded = (actions.filterMap Action.item?).filterMap StreamItem.head? := by
    rw [← flatten_sessionsOf (Feed.item?_eq_none_of_inSession rfl h)]
    exact headsOf_eq _
  have hbalanced := Feed.balanced_of_run? h
  refine ⟨?_, hbalanced.channel_eq, ?_, ?_, ?_⟩
  · rw [hyielded]
    exact hbalanced.prefix_and_length
  · rw [hyielded]
    exact hbalanced.account
  · intro hopen
    rcases hbalanced.unspent with hnone | ⟨_, hfinished⟩
    · exact hnone
    · exact absurd hfinished hopen
  · intro action g head hstep hheld
    exact (Feed.Step.of_step? hstep).of_held? hheld

/-- A service of a node on the same machine, with the default delay. -/
def Service.atLocalhost : Service where
  name := "lighthouse"
  url := ⟨"http", .divided (some { host := .name "localhost", port := some 5052 }) [""], none, none⟩

/-- Two heads of one session, of which the second one waits for room, and a head of the next session that is
given up when the service is told to end. -/
def Action.overTwoSessions : List Action :=
  [.connect, .yield .connected, .yield (.head ⟨7, "0x07", "0x70"⟩), .send, .yield (.head ⟨7, "0x07", "0x70"⟩),
    .receive, .send, .yield (.failed (.stream .endOfBody)), .wake, .connect, .yield .connected,
    .yield (.head ⟨8, "0x08", "0x80"⟩), .cancel, .stop]

theorem heads_enter_in_order_overTwoSessions :
    ∃ f, (Feed.fresh 1).run? .atLocalhost Action.overTwoSessions = some f ∧
      (Feed.fresh 1).entered .atLocalhost Action.overTwoSessions
        <+: headsOf (sessionsOf Action.overTwoSessions) :=
  ⟨_, rfl, (heads_enter_in_order .atLocalhost 1 Action.overTwoSessions _ rfl).1.1⟩

end ChainHead
