import ChainHead.Proofs.Consumer.Steps

/-! How a consumer takes its turns. The heads that it has handled are the first of those that were sent to it, each of
them handled once and to its end before the next one is taken; behind them stands at most the one that it is handling,
and then what still waits in the channel. It ends only when it has been told to, or when all heads are handled and none
can come any more. Whatever the node answers, the consumer goes on. -/

namespace ChainHead

namespace Consumer

def Action.sent? : Action → Option HeadEvent
  | .send head => some head
  | _ => none

def Action.heard? : Action → Option Answer
  | .hear answer => some answer
  | _ => none

/-- What a consumer does by itself. All else comes from outside. -/
def Action.isOwn : Action → Bool
  | .take | .hear _ | .stop => true
  | .send _ | .closeChannel | .cancel => false

/-- The head that is handled. -/
def held? (c : Consumer) : Option HeadEvent :=
  match c.phase with
  | .handling head _ => some head
  | .waiting | .finished _ => none

/-- What an action takes from the channel. -/
def taking (c : Consumer) : Action → List HeadEvent
  | .take => c.queue.head?.toList
  | _ => []

/-- The head that is handled before an action and not behind it. -/
def finishing (c : Consumer) (action : Action) : List HeadEvent :=
  match c.step? action with
  | some d => if d.held? = none then c.held?.toList else []
  | none => []

/-- The heads that are taken from the channel in a run. -/
def taken (c : Consumer) (actions : List Action) : List HeadEvent := c.along taking actions

/-- The heads that are handled to their end in a run. -/
def handled (c : Consumer) (actions : List Action) : List HeadEvent := c.along finishing actions

/-- Where a consumer stands in its turn: what has been heard and logged since the last head was handled. -/
inductive Stands (c : Consumer) : List Answer → List LogEntry → Prop
  | waiting (hphase : c.phase = .waiting) : Stands c [] []
  | handling {head : HeadEvent} {stage : Follower.Stage} {heard : List Answer} {log : List LogEntry}
      (hphase : c.phase = .handling head stage) (hreaches : c.follower.Reaches head stage heard log) :
      Stands c heard log
  | finished {ending : Ending} (hphase : c.phase = .finished ending) : Stands c [] [ending.entry]

/-- A run told in rounds: the heads that are handled, each with the answers that are heard about it. -/
structure Told (start : Consumer) (actions : List Action) (c : Consumer) (rounds : List (HeadEvent × Answers)) :
    Prop where
  handled : rounds.map Prod.fst = start.handled actions
  follower : c.follower = (start.follower.handleAll rounds).follower
  stands : ∃ heard log, c.Stands heard log ∧
    actions.filterMap Action.heard? = start.follower.answered rounds ++ heard ∧
      c.log = (start.follower.handleAll rounds).log ++ log

variable {start c d : Consumer} {action : Action} {actions : List Action} {rounds : List (HeadEvent × Answers)}
  {heard : List Answer} {log : List LogEntry}

/-! ### One step -/

theorem Stands.congr (h : c.Stands heard log) (hphase : d.phase = c.phase) (hfollower : d.follower = c.follower) :
    d.Stands heard log := by
  cases h with
  | waiting hwaiting => exact .waiting (hphase.trans hwaiting)
  | handling hhandling hreaches => exact .handling (hphase.trans hhandling) (hfollower ▸ hreaches)
  | finished hfinished => exact .finished (hphase.trans hfinished)

theorem Stands.of_waiting (h : c.Stands heard log) (hphase : c.phase = .waiting) : heard = [] ∧ log = [] := by
  cases h with
  | waiting => exact ⟨rfl, rfl⟩
  | handling hhandling => cases hphase.symm.trans hhandling
  | finished hfinished => cases hphase.symm.trans hfinished

theorem Stands.of_handling {head : HeadEvent} {stage : Follower.Stage} (h : c.Stands heard log)
    (hphase : c.phase = .handling head stage) : c.follower.Reaches head stage heard log := by
  cases h with
  | waiting hwaiting => cases hphase.symm.trans hwaiting
  | handling hhandling hreaches =>
      cases hphase.symm.trans hhandling
      exact hreaches
  | finished hfinished => cases hphase.symm.trans hfinished

theorem held?_of_handling {head : HeadEvent} {stage : Follower.Stage} (h : c.phase = .handling head stage) :
    c.held? = some head := by
  rw [held?, h]

theorem held?_of_waiting (h : c.phase = .waiting) : c.held? = none := by
  rw [held?, h]

theorem Step.finishing_eq (h : Step c action d) :
    c.finishing action = if d.held? = none then c.held?.toList else [] := by
  rw [finishing, h.step?_eq]

/-- What waits in the channel is what was sent, in the same order, but for what is taken. -/
theorem Step.queue_eq (h : Step c action d) : c.queue ++ action.sent?.toList = c.taking action ++ d.queue := by
  cases h with
  | send head => rfl
  | @take head rest _ hqueue => simp [taking, hqueue, Action.sent?, begin]
  | _ => simp [taking, Action.sent?, proceed, finish]

/-- A head that is handled stays so until it is handled to its end, and only then another one is taken. -/
theorem Step.held?_eq (h : Step c action d) :
    c.held?.toList ++ c.taking action = c.finishing action ++ d.held?.toList := by
  have hsame (hphase : d.phase = c.phase) : c.held?.toList = c.finishing action ++ d.held?.toList := by
    have hheld : d.held? = c.held? := by rw [held?, held?, hphase]
    rw [h.finishing_eq, hheld]
    cases c.held? <;> rfl
  cases h with
  | @take head rest hphase hqueue hcancelled =>
      rw [(Step.take hphase hqueue hcancelled).finishing_eq, held?_of_waiting hphase]
      simp [taking, hqueue, held?, begin]
  | @hear head stage answer p hphase hhear =>
      rw [(Step.hear hphase hhear).finishing_eq, held?_of_handling hphase]
      cases hstage : p.stage <;> simp [taking, held?, proceed, hstage]
  | stop hphase hending =>
      rw [(Step.stop hphase hending).finishing_eq, held?_of_waiting hphase]
      rfl
  | _ =>
      rw [← hsame rfl]
      exact List.append_nil _

/-- A step goes on with the turn of a consumer, or completes it. -/
theorem Step.stands (h : Step c action d) (hstands : c.Stands heard log) :
    ∃ new, d.log = c.log ++ new ∧
      (c.finishing action = [] ∧ d.follower = c.follower ∧
          d.Stands (heard ++ action.heard?.toList) (log ++ new) ∨
        ∃ head a, c.finishing action = [head] ∧ d.Stands [] [] ∧
          c.follower.Completes head a d.follower (heard ++ action.heard?.toList) (log ++ new)) := by
  have hsame (hphase : d.phase = c.phase) (hfollower : d.follower = c.follower) (hheard : action.heard? = none)
      (hlog : d.log = c.log) : ∃ new, d.log = c.log ++ new ∧
      (c.finishing action = [] ∧ d.follower = c.follower ∧
          d.Stands (heard ++ action.heard?.toList) (log ++ new) ∨
        ∃ head a, c.finishing action = [head] ∧ d.Stands [] [] ∧
          c.follower.Completes head a d.follower (heard ++ action.heard?.toList) (log ++ new)) := by
    have hheld : d.held? = c.held? := by rw [held?, held?, hphase]
    refine ⟨[], hlog.trans (List.append_nil _).symm, .inl ⟨?_, hfollower, ?_⟩⟩
    · rw [h.finishing_eq, hheld]
      cases c.held? <;> rfl
    · rw [hheard, Option.toList_none, List.append_nil, List.append_nil]
      exact hstands.congr hphase hfollower
  cases h with
  | @take head rest hphase hqueue hcancelled =>
      obtain ⟨rfl, rfl⟩ := hstands.of_waiting hphase
      refine ⟨[Follower.headEntry head], rfl, .inl ⟨?_, rfl, .handling rfl .syncStatus⟩⟩
      exact (Step.take hphase hqueue hcancelled).finishing_eq
  | @hear head stage answer p hphase hhear =>
      have hfinishing := (Step.hear hphase hhear).finishing_eq
      rw [held?_of_handling hphase] at hfinishing
      refine ⟨p.log, rfl, ?_⟩
      rcases (hstands.of_handling hphase).hear (.of_hear hhear) with
        ⟨next, hnext, hfollower, hreaches⟩ | ⟨hnone, a, hcompletes⟩
      · have hphase' : (c.proceed head p).phase = .handling head next := by rw [proceed, hnext]
        rw [held?_of_handling hphase', if_neg (Option.some_ne_none head)] at hfinishing
        refine .inl ⟨hfinishing, hfollower, .handling hphase' ?_⟩
        exact Eq.subst (motive := fun f => Follower.Reaches f head next _ _) hfollower.symm hreaches
      · have hphase' : (c.proceed head p).phase = .waiting := by rw [proceed, hnone]
        rw [held?_of_waiting hphase', if_pos rfl] at hfinishing
        exact .inr ⟨head, a, hfinishing, .waiting hphase', hcompletes⟩
  | @stop ending hphase hending =>
      obtain ⟨rfl, rfl⟩ := hstands.of_waiting hphase
      refine ⟨[ending.entry], rfl, .inl ⟨?_, rfl, .finished rfl⟩⟩
      rw [(Step.stop hphase hending).finishing_eq, held?_of_waiting hphase]
      rfl
  | _ => exact hsame rfl rfl rfl rfl

/-! ### Runs -/

/-- What was sent has been taken or waits in the channel, and what has been taken has been handled or is. -/
theorem balanced_of_run? (h : start.run? actions = some c) :
    start.queue ++ actions.filterMap Action.sent? = start.taken actions ++ c.queue ∧
      start.held?.toList ++ start.taken actions = start.handled actions ++ c.held?.toList := by
  refine run?_induction (P := fun actions c =>
    start.queue ++ actions.filterMap Action.sent? = start.taken actions ++ c.queue ∧
      start.held?.toList ++ start.taken actions = start.handled actions ++ c.held?.toList) ?_ ?_ actions h
  · exact ⟨List.append_nil _, List.append_nil _⟩
  · rintro front e action d hrun hstep ⟨hsent, htaken⟩
    have hlast : List.filterMap Action.sent? [action] = action.sent?.toList := by
      cases hsent : action.sent? <;> simp [hsent]
    have htaking : start.taken (front ++ [action]) = start.taken front ++ e.taking action := along_snoc hrun
    have hfinishing : start.handled (front ++ [action]) = start.handled front ++ e.finishing action := along_snoc hrun
    constructor
    · rw [List.filterMap_append, hlast, ← List.append_assoc, hsent, List.append_assoc, hstep.queue_eq, htaking,
        List.append_assoc]
    · rw [htaking, ← List.append_assoc, htaken, List.append_assoc, hstep.held?_eq, hfinishing, List.append_assoc]

/-- What was sent to a consumer that starts with nothing has been handled, is handled now or waits. -/
theorem sent_eq_of_run? (hqueue : start.queue = []) (hphase : start.phase = .waiting)
    (h : start.run? actions = some c) :
    actions.filterMap Action.sent? = start.handled actions ++ c.held?.toList ++ c.queue ∧
      start.taken actions = start.handled actions ++ c.held?.toList := by
  obtain ⟨hsent, htaken⟩ := balanced_of_run? h
  rw [hqueue, List.nil_append] at hsent
  rw [held?_of_waiting hphase, Option.toList_none, List.nil_append] at htaken
  exact ⟨htaken ▸ hsent, htaken⟩

theorem Told.step (h : Told start actions c rounds) (hrun : start.run? actions = some c) (hstep : Step c action d) :
    ∃ more, Told start (actions ++ [action]) d (rounds ++ more) := by
  obtain ⟨heard, log, hstands, hheard, hlog⟩ := h.stands
  obtain ⟨new, hnew, hturn⟩ := hstep.stands hstands
  have hhandled : start.handled (actions ++ [action]) = start.handled actions ++ c.finishing action := along_snoc hrun
  have hanswers : (actions ++ [action]).filterMap Action.heard? =
      start.follower.answered rounds ++ (heard ++ action.heard?.toList) := by
    rw [List.filterMap_append, hheard, List.append_assoc]
    cases hlast : action.heard? <;> simp [hlast]
  have hentries : d.log = (start.follower.handleAll rounds).log ++ (log ++ new) := by
    rw [hnew, hlog, List.append_assoc]
  rcases hturn with ⟨hnone, hfollower, hgoes⟩ | ⟨head, a, hdone, hwaits, hfollower, hall, hlogged⟩
  · rw [hnone, List.append_nil] at hhandled
    refine ⟨[], ?_⟩
    rw [List.append_nil]
    exact ⟨h.handled.trans hhandled.symm, hfollower.trans h.follower, _, _, hgoes, hanswers, hentries⟩
  · rw [h.follower] at hfollower hall hlogged
    refine ⟨[(head, a)], ?_, hfollower.trans Follower.follower_handleAll_snoc.symm, [], [], hwaits, ?_, ?_⟩
    · rw [List.map_append, h.handled, hhandled, hdone]
      rfl
    · rw [hanswers, hall, Follower.answered_snoc, List.append_nil]
    · rw [hentries, hlogged, Follower.log_handleAll_snoc, List.append_nil]

theorem exists_told (hphase : start.phase = .waiting) (hlog : start.log = []) (h : start.run? actions = some c) :
    ∃ rounds, Told start actions c rounds := by
  refine run?_induction (P := fun actions c => ∃ rounds, Told start actions c rounds)
    ⟨[], rfl, rfl, [], [], .waiting hphase, rfl, hlog⟩ (fun front e action d hrun hstep ih => ?_) actions h
  obtain ⟨rounds, htold⟩ := ih
  obtain ⟨more, hmore⟩ := htold.step hrun hstep
  exact ⟨_, hmore⟩

/-! ### Endings -/

theorem Step.cancelled_iff (h : Step c action d) : d.cancelled = true ↔ c.cancelled = true ∨ .cancel = action := by
  cases h <;> simp [begin, proceed, finish]

theorem Step.closed_iff (h : Step c action d) : d.closed = true ↔ c.closed = true ∨ .closeChannel = action := by
  cases h <;> simp [begin, proceed, finish]

/-- What one action alone brings about, and nothing undoes, is so in the end if the action is in the run. -/
theorem flag_iff_mem {flag : Consumer → Bool} {cause : Action}
    (hstep : ∀ c action d, Step c action d → (flag d = true ↔ flag c = true ∨ cause = action))
    (hfresh : flag start = false) (h : start.run? actions = some c) : flag c = true ↔ cause ∈ actions := by
  refine run?_induction (P := fun actions c => flag c = true ↔ cause ∈ actions) ?_ ?_ actions h
  · simp [hfresh]
  · intro front e action d _ htaken ih
    rw [hstep e action d htaken, ih, List.mem_append, List.mem_singleton]

theorem cancelled_iff_mem (hfresh : start.cancelled = false) (h : start.run? actions = some c) :
    c.cancelled = true ↔ .cancel ∈ actions :=
  flag_iff_mem (fun _ _ _ => Step.cancelled_iff) hfresh h

theorem closed_iff_mem (hfresh : start.closed = false) (h : start.run? actions = some c) :
    c.closed = true ↔ .closeChannel ∈ actions :=
  flag_iff_mem (fun _ _ _ => Step.closed_iff) hfresh h

/-- Why a consumer has ended stays true: nothing is sent to it any more. -/
def HasReason (c : Consumer) : Prop :=
  (c.phase = .finished .shutdown → c.cancelled = true) ∧
    (c.phase = .finished .channelClosed → c.closed = true ∧ c.queue = [])

theorem Step.hasReason (h : Step c action d) (hreason : c.HasReason) : d.HasReason := by
  cases h with
  | send head hsenders hopen =>
      have hphase (ending : Ending) : c.phase ≠ .finished ending := by
        intro hfinished
        rw [isFinished, hfinished] at hopen
        cases hopen
      exact ⟨fun hfinished => absurd hfinished (hphase _), fun hfinished => absurd hfinished (hphase _)⟩
  | closeChannel => exact ⟨hreason.1, fun hfinished => ⟨rfl, (hreason.2 hfinished).2⟩⟩
  | cancel => exact ⟨fun _ => rfl, hreason.2⟩
  | take =>
      constructor <;> intro hfinished <;> cases hfinished
  | @hear head stage answer p =>
      constructor <;> intro hfinished <;> cases hstage : p.stage <;> simp [proceed, hstage] at hfinished
  | @stop ending _ hending =>
      constructor
      · intro hfinished
        cases hfinished
        exact ending?_eq_shutdown_iff.mp hending
      · intro hfinished
        cases hfinished
        exact (ending?_eq_channelClosed_iff.mp hending).2

theorem hasReason_of_run? (hphase : start.phase = .waiting) (h : start.run? actions = some c) : c.HasReason := by
  refine run?_induction (P := fun _ c => c.HasReason) ?_ (fun _ _ _ _ _ hstep ih => hstep.hasReason ih) actions h
  constructor <;> intro hfinished <;> cases hphase.symm.trans hfinished

/-- A consumer that has been told to end takes no head any more. -/
theorem taken_of_cancelled {more : List Action} (hcancelled : c.cancelled = true) (h : c.run? more = some d) :
    c.taken more = [] := by
  have hkept : d.cancelled = true ∧ c.taken more = [] := by
    refine run?_induction (P := fun more d => d.cancelled = true ∧ c.taken more = []) ⟨hcancelled, rfl⟩ ?_ more h
    rintro front e action d hrun hstep ⟨hstill, htaken⟩
    have htaking : e.taking action = [] := by
      cases hstep with
      | take _ _ hopen => cases hstill.symm.trans hopen
      | _ => rfl
    refine ⟨hstep.cancelled_iff.mpr (.inl hstill), ?_⟩
    rw [taken, along_snoc hrun, htaking, List.append_nil]
    exact htaken
  exact hkept.2

/-- Wherever a consumer waits for a head, all that one that has been told to end can do is to end. -/
theorem step?_eq_some_iff_of_cancelled (hphase : c.phase = .waiting) (hcancelled : c.cancelled = true)
    (hown : action.isOwn = true) : c.step? action = some d ↔ action = .stop ∧ d = c.finish .shutdown := by
  rw [step?_eq_some_iff]
  constructor
  · intro h
    cases h with
    | send => cases hown
    | closeChannel => cases hown
    | cancel => cases hown
    | take _ _ hopen => cases hcancelled.symm.trans hopen
    | hear hhandling => cases hphase.symm.trans hhandling
    | stop _ hending =>
        cases hending.symm.trans (ending?_of_cancelled hcancelled)
        exact ⟨rfl, rfl⟩
  · rintro ⟨rfl, rfl⟩
    exact .stop hphase (ending?_of_cancelled hcancelled)

/-- Whatever the node answers, a head is handled to its end, and the consumer waits for the next one. -/
theorem exists_run?_waiting {head : HeadEvent} {stage : Follower.Stage} (a : Answers)
    (hphase : c.phase = .handling head stage) :
    ∃ (questions : List Question) (d : Consumer),
      c.run? (questions.map fun question => .hear (a.to question)) = some d ∧ d.phase = .waiting ∧
        d.queue = c.queue ∧ d.cancelled = c.cancelled ∧ d.closed = c.closed := by
  -- every answer brings the last stage nearer
  induction hcount : stage.remaining using Nat.strongRecOn generalizing c stage with
  | ind count ih =>
      obtain ⟨p, hhear⟩ := c.follower.exists_hear head stage a
      have hstep : c.step? (.hear (a.to (c.follower.asks head stage))) = some (c.proceed head p) :=
        (Step.hear hphase hhear).step?_eq
      cases hstage : p.stage with
      | none =>
          have hwaiting : (c.proceed head p).phase = .waiting := by rw [proceed, hstage]
          exact ⟨[c.follower.asks head stage], _, by simp [run?, hstep], hwaiting, rfl, rfl, rfl⟩
      | some next =>
          have hnext : (c.proceed head p).phase = .handling head next := by rw [proceed, hstage]
          have hlt : next.remaining < count := hcount ▸ Follower.remaining_lt (.of_hear hhear) hstage
          obtain ⟨questions, d, hrun, hd⟩ := ih _ hlt hnext rfl
          refine ⟨c.follower.asks head stage :: questions, d, ?_, hd⟩
          rw [List.map_cons, run?, hstep]
          exact hrun

theorem step?_eq_some_iff_of_queue {head : HeadEvent} {rest : List HeadEvent} (hphase : c.phase = .waiting)
    (hopen : c.cancelled = false) (hqueue : c.queue = head :: rest) (hown : action.isOwn = true) :
    c.step? action = some d ↔ action = .take ∧ d = c.begin head rest := by
  rw [step?_eq_some_iff]
  constructor
  · intro h
    cases h with
    | send => cases hown
    | closeChannel => cases hown
    | cancel => cases hown
    | take _ hfirst =>
        cases hqueue.symm.trans hfirst
        exact ⟨rfl, rfl⟩
    | hear hhandling => cases hphase.symm.trans hhandling
    | stop _ hending => simp [ending?, hopen, hqueue] at hending
  · rintro ⟨rfl, rfl⟩
    exact .take hphase hqueue hopen

/-- When a head is taken, all that were taken before have been handled. -/
theorem taken_eq_handled {front back : List Action} (hqueue : start.queue = []) (hphase : start.phase = .waiting)
    (h : start.run? (front ++ .take :: back) = some c) : start.taken front = start.handled front := by
  rw [run?_append] at h
  obtain ⟨e, hfront, hmore⟩ := Option.bind_eq_some_iff.mp h
  obtain ⟨d, hstep, -⟩ := Option.bind_eq_some_iff.mp hmore
  have htaken := (sent_eq_of_run? hqueue hphase hfront).2
  cases Step.of_step? hstep with
  | take hwaiting => rwa [held?_of_waiting hwaiting, Option.toList_none, List.append_nil] at htaken

/-- A run of a consumer in good order. -/
structure Orderly (start : Consumer) (actions : List Action) (c : Consumer) : Prop where
  /-- What is sent is handled in the same order. Then comes the head that is handled now, and then what waits. -/
  account : actions.filterMap Action.sent? = start.handled actions ++ c.held?.toList ++ c.queue
  /-- Each head is taken once, and when one is taken those that were taken before have been handled. -/
  taken : start.taken actions = start.handled actions ++ c.held?.toList
  alone : ∀ front back, actions = front ++ .take :: back → start.taken front = start.handled front
  /-- Each head is handled as a follower handles it that is given all answers at once. -/
  told : ∃ rounds, Told start actions c rounds
  /-- There are two reasons to end, and the last entry tells which. Without a call to end all heads are handled. -/
  ended : ∀ ending, c.phase = .finished ending → c.log.getLast? = some ending.entry ∧
    (ending = .shutdown ∧ .cancel ∈ actions ∨
      ending = .channelClosed ∧ .closeChannel ∈ actions ∧ start.handled actions = actions.filterMap Action.sent?)
  /-- Whatever waits in the channel, and whether or not it is closed, a call to end counts before the next head. -/
  cancelled : .cancel ∈ actions → (∀ more d, c.run? more = some d → c.taken more = []) ∧
    (c.phase = .waiting → ∀ action d, action.isOwn = true →
      (c.step? action = some d ↔ action = .stop ∧ d = c.finish .shutdown))
  /-- Whatever the node answers, and be it failures only, the head is handled and the next one is waited for. -/
  endures : ∀ head stage, c.phase = .handling head stage → ∀ a : Answers, ∃ (questions : List Question) (d : Consumer),
    c.run? (questions.map fun question => .hear (a.to question)) = some d ∧ d.phase = .waiting ∧
      d.queue = c.queue ∧ d.cancelled = c.cancelled ∧ d.closed = c.closed
  goes_on : c.phase = .waiting → .cancel ∉ actions → ∀ head rest, c.queue = head :: rest →
    ∀ action d, action.isOwn = true → (c.step? action = some d ↔ action = .take ∧ d = c.begin head rest)

end Consumer

/-- Over any run, in which heads come in, senders leave, the end is called for and the node answers in any order, a
consumer is in good order. -/
theorem heads_are_handled_in_turn (slots : UInt64) (actions : List Consumer.Action) (c : Consumer)
    (h : (Consumer.ofSlotsPerEpoch slots).run? actions = some c) :
    Consumer.Orderly (.ofSlotsPerEpoch slots) actions c := by
  obtain ⟨hsent, htaken⟩ := Consumer.sent_eq_of_run? rfl rfl h
  have hcancelled := Consumer.cancelled_iff_mem rfl h
  have htold := Consumer.exists_told rfl rfl h
  refine
    { account := hsent
      taken := htaken
      alone := fun front back heq => Consumer.taken_eq_handled rfl rfl (heq ▸ h)
      told := htold
      ended := fun ending hfinished => ⟨?_, ?_⟩
      cancelled := fun hmem => ⟨fun more d => Consumer.taken_of_cancelled (hcancelled.mpr hmem), fun hphase _ _ =>
        Consumer.step?_eq_some_iff_of_cancelled hphase (hcancelled.mpr hmem)⟩
      endures := fun head stage hphase a => Consumer.exists_run?_waiting a hphase
      goes_on := fun hphase hnot head rest hqueue _ _ => Consumer.step?_eq_some_iff_of_queue hphase
        (Bool.eq_false_iff.mpr (mt hcancelled.mp hnot)) hqueue }
  · obtain ⟨rounds, -, -, heard, log, hstands, -, hlog⟩ := htold
    cases hstands with
    | waiting hwaiting => cases hwaiting.symm.trans hfinished
    | handling hhandling => cases hhandling.symm.trans hfinished
    | finished hended =>
        cases hended.symm.trans hfinished
        rw [hlog, List.getLast?_concat]
  · have hreason := Consumer.hasReason_of_run? rfl h
    cases ending with
    | shutdown => exact .inl ⟨rfl, hcancelled.mp (hreason.1 hfinished)⟩
    | channelClosed =>
        obtain ⟨hclosed, hempty⟩ := hreason.2 hfinished
        refine .inr ⟨rfl, (Consumer.closed_iff_mem rfl h).mp hclosed, ?_⟩
        have hheld : c.held? = none := by rw [Consumer.held?, hfinished]
        rw [hsent, hheld, hempty, Option.toList_none, List.append_nil, List.append_nil]

/-- The end is called for while the first of two heads is handled. The second one stays in the channel. -/
theorem heads_are_handled_in_turn_cutShort :
    let first : HeadEvent := { slot := 64, block := "0x01", state := "0x02" }
    let second : HeadEvent := { slot := 65, block := "0x03", state := "0x04" }
    let failed : Error := .transport .timeout
    let start : Consumer := .ofSlotsPerEpoch 32
    let actions : List Consumer.Action :=
      [.send first, .take, .hear (.syncStatus (.error failed)), .send second, .cancel,
        .hear (.proposerDuties (.error failed)), .closeChannel, .stop]
    ∃ c, start.run? actions = some c ∧ c.phase = .finished .shutdown ∧ start.handled actions = [first] ∧
      c.queue = [second] ∧ start.Orderly actions c :=
  ⟨_, rfl, rfl, rfl, rfl, heads_are_handled_in_turn 32 _ _ rfl⟩

end ChainHead
