import ChainHead.Proofs.Service.Delivery
import ChainHead.Proofs.Service.Retelling

/-! Events that a service skips. No step looks at the log, and a skipped event leaves nothing but one entry in
it. So a run goes on as it would if the skipped events had never been there, step by step, up to those entries. -/

namespace ChainHead

/-- The error for which an item is skipped, if it is. -/
def StreamItem.skipped? : StreamItem → Option Error
  | .failed error => if error.isSkippable then some error else none
  | _ => none

def Action.skipped? (action : Action) : Option Error := action.item?.bind StreamItem.skipped?

def keptItems (items : List StreamItem) : List StreamItem := items.filter (·.skipped?.isNone)

/-- Actions without those that bring what is skipped. -/
def kept (actions : List Action) : List Action := actions.filter (·.skipped?.isNone)

/-- Whether an entry is about an event that is passed over. -/
def isSkip (entry : LogEntry) : Bool := entry.message = "Malformed head event, skipping"

theorem not_isSkippable {error : Error} (h : (StreamItem.failed error).skipped? = none) :
    ¬error.isSkippable = true := by
  intro hskippable
  simp [StreamItem.skipped?, hskippable] at h

theorem Action.exists_of_skipped? {action : Action} {error : Error} (h : action.skipped? = some error) :
    action = .yield (.failed error) ∧ error.isSkippable = true := by
  cases action with
  | yield item =>
      cases item with
      | failed fault =>
          have hfault : (if fault.isSkippable then some fault else none) = some error := h
          split at hfault
          · rename_i hskippable
            cases hfault
            exact ⟨rfl, hskippable⟩
          · cases hfault
      | _ => cases h
  | _ => cases h

theorem kept_append (front back : List Action) : kept (front ++ back) = kept front ++ kept back :=
  List.filter_append front back

theorem kept_of_skipped? {action : Action} {error : Error} (h : action.skipped? = some error) :
    kept [action] = [] := by
  simp [kept, h]

theorem kept_of_skipped?_eq_none {action : Action} (h : action.skipped? = none) : kept [action] = [action] := by
  simp [kept, h]

/-- Each session of what is kept yields what is kept of it. -/
theorem sessionsOf_kept (actions : List Action) : sessionsOf (kept actions) = (sessionsOf actions).map keptItems := by
  have hconnect : ∀ action : Action, action.isConnect = true → action.skipped?.isNone = true := by
    intro action h
    rw [Action.skipped?, Action.item?_of_isConnect h]
    rfl
  have hpiece (piece : List Action) :
      (piece.filter (·.skipped?.isNone)).filterMap Action.item? = keptItems (piece.filterMap Action.item?) := by
    rw [keptItems, List.filterMap_filter, List.filter_filterMap]
    congr 1
    funext action
    cases action with
    | yield item => cases h : item.skipped? <;> simp [Action.skipped?, Action.item?, Option.filter, h]
    | _ => rfl
  rw [sessionsOf, kept, Cut.pieces_filter hconnect, ← List.map_tail, List.map_map, sessionsOf, List.map_map]
  exact List.map_congr_left fun piece _ => hpiece piece

namespace Feed

/-- A service as if it had never skipped anything. -/
def bare (f : Feed) : Feed := { f with log := f.log.filter (!isSkip ·) }

/-- The phase and the state that an action leads to, if it changes one of them. -/
def turning (s : Service) (f : Feed) (action : Action) : List (Phase × StreamState) :=
  (f.step? s action).toList.filterMap fun g =>
    if g.phase = f.phase ∧ g.state = f.state then none else some (g.phase, g.state)

/-- The phases and states that a service goes through in a run. -/
def turns (s : Service) (f : Feed) (actions : List Action) : List (Phase × StreamState) :=
  f.along s (turning s) actions

variable {s : Service} {f g : Feed} {action : Action} {actions : List Action}

/-! ### One step -/

theorem filter_note {entries : List LogEntry} (h : entries.filter isSkip = []) (f : Feed) :
    (f.note entries).log.filter isSkip = f.log.filter isSkip := by
  rw [note, List.filter_append, h, List.append_nil]

theorem becomes_bare {entry : LogEntry} (h : isSkip entry = false) : entry.Becomes (·.filter (!isSkip ·)) entry := by
  intro log
  show (log ++ [entry]).filter (!isSkip ·) = log.filter (!isSkip ·) ++ [entry]
  rw [List.filter_append, List.filter_cons_of_pos (by rw [h]; rfl), List.filter_nil]

/-- All that a service tells, but for what it skips, stays in the log. -/
theorem retells_bare (s : Service) : s.Retells (·.filter (!isSkip ·)) s where
  target_eq := rfl
  connecting _ := becomes_bare rfl
  unsubscribed _ := becomes_bare rfl
  subscribed := becomes_bare rfl
  received _ := becomes_bare rfl
  failed _ := becomes_bare rfl
  ended _ := becomes_bare rfl
  exit exit := becomes_bare (by cases exit <;> rfl)

theorem take_of_isSkippable {error : Error} (h : error.isSkippable = true) (f : Feed) :
    f.take s (.failed error) = f.note [s.skippedEntry error] := by
  rw [take, if_pos h]

theorem isSkip_skippedEntry (error : Error) : isSkip (s.skippedEntry error) = true := by
  simp [isSkip, Service.skippedEntry]

/-- What is skipped leaves nothing but an entry in the log. -/
theorem bare_take_of_isSkippable {error : Error} (h : error.isSkippable = true) (f : Feed) :
    (f.take s (.failed error)).bare = f.bare := by
  rw [take_of_isSkippable h, bare, note, List.filter_append]
  simp [isSkip_skippedEntry, bare]

/-- No step looks at what the log says about skipped events. -/
theorem step?_bare (haction : action.skipped? = none) (f : Feed) :
    f.bare.step? s action = (f.step? s action).map bare := by
  refine step?_retold (retells_bare s) (fun error hyield hskippable => ?_) f
  subst hyield
  exact absurd hskippable (not_isSkippable haction)

theorem Step.of_skipped? {error : Error} (h : Step s f action g) (haction : action.skipped? = some error) :
    g.bare = f.bare ∧ g = f.note [s.skippedEntry error] := by
  obtain ⟨rfl, hskippable⟩ := Action.exists_of_skipped? haction
  cases h with
  | yield => exact ⟨bare_take_of_isSkippable hskippable f, take_of_isSkippable hskippable f⟩

theorem Step.bare (h : Step s f action g) (haction : action.skipped? = none) :
    Step s f.bare action g.bare := by
  rw [← step?_eq_some_iff, step?_bare haction, h.step?_eq, Option.map_some]

/-- What a step adds to what the log says about skipped events. -/
theorem Step.skips_eq (h : Step s f action g) :
    g.log.filter isSkip = f.log.filter isSkip ++ action.skipped?.toList.map s.skippedEntry := by
  cases haction : action.skipped? with
  | some error =>
      rw [(h.of_skipped? haction).2, note, List.filter_append]
      simp [isSkip_skippedEntry]
  | none =>
      rw [Option.toList_none, List.map_nil, List.append_nil]
      cases h with
      | connect =>
          cases htarget : Stream.target s.url with
          | ok target =>
              rw [connect_of_ok htarget]
              exact filter_note rfl f
          | error fault =>
              rw [connect_of_error htarget]
              exact (filter_note rfl _).trans (filter_note rfl f)
      | yield item =>
          cases item with
          | connected => exact filter_note rfl f
          | head event => exact filter_note rfl f
          | failed error =>
              rw [take, if_neg (not_isSkippable haction)]
              exact (filter_note rfl _).trans (filter_note rfl f)
      | close => exact filter_note rfl f
      | @stop exit => exact filter_note (by cases exit <;> rfl) f
      | _ => rfl

/-! ### Runs -/

/-- A run goes on as it would without what is skipped. -/
theorem run?_bare (h : f.run? s actions = some g) : f.bare.run? s (kept actions) = some g.bare := by
  refine run?_induction (P := fun actions g => f.bare.run? s (kept actions) = some g.bare) rfl
    (fun front e action g _ hstep ih => ?_) actions h
  rw [kept_append]
  cases haction : action.skipped? with
  | none =>
      rw [kept_of_skipped?_eq_none haction]
      exact run?_snoc.mpr ⟨e.bare, ih, hstep.bare haction⟩
  | some error =>
      rw [kept_of_skipped? haction, List.append_nil, (hstep.of_skipped? haction).1]
      exact ih

/-- What is told of single steps, but neither of the log nor of what is skipped, is told of the run without what is
skipped as well. -/
theorem along_bare {α : Type} {tell : Feed → Action → List α}
    (hbare : ∀ (f : Feed) (action : Action), action.skipped? = none → tell f.bare action = tell f action)
    (hskip : ∀ (f : Feed) (error : Error), error.isSkippable = true → tell f (.yield (.failed error)) = [])
    (h : f.run? s actions = some g) : f.bare.along s tell (kept actions) = f.along s tell actions := by
  refine run?_induction (P := fun actions _ => f.bare.along s tell (kept actions) = f.along s tell actions) rfl
    (fun front e action g hrun hstep ih => ?_) actions h
  rw [along_snoc hrun, ← ih, kept_append]
  cases haction : action.skipped? with
  | none => rw [kept_of_skipped?_eq_none haction, along_snoc (run?_bare hrun), hbare e action haction]
  | some error =>
      obtain ⟨rfl, hskippable⟩ := Action.exists_of_skipped? haction
      rw [kept_of_skipped? haction, hskip e error hskippable, List.append_nil, List.append_nil]

/-- The log says about skipped events what was skipped, event by event. -/
theorem skips_of_run? (h : f.run? s actions = some g) :
    g.log.filter isSkip = f.log.filter isSkip ++ (actions.filterMap Action.skipped?).map s.skippedEntry := by
  refine run?_induction (P := fun actions g =>
    g.log.filter isSkip = f.log.filter isSkip ++ (actions.filterMap Action.skipped?).map s.skippedEntry) (by simp)
    (fun front e action g _ hstep ih => ?_) actions h
  rw [hstep.skips_eq, ih, List.filterMap_append, List.map_append, List.append_assoc]
  cases haction : action.skipped? <;> simp [haction]

/-- What is skipped changes neither the phase nor the state. -/
theorem turns_bare (h : f.run? s actions = some g) : f.bare.turns s (kept actions) = f.turns s actions := by
  refine along_bare (fun e action haction => ?_) (fun e error hskippable => ?_) h
  · rw [turning, turning, step?_bare haction]
    cases e.step? s action <;> rfl
  · rw [turning, step?, take_of_isSkippable hskippable]
    split
    · simp [note]
    · rfl

theorem entered_bare (h : f.run? s actions = some g) : f.bare.entered s (kept actions) = f.entered s actions :=
  along_bare (fun _ action _ => by cases action <;> rfl) (fun _ _ _ => rfl) h

theorem received_bare (h : f.run? s actions = some g) :
    f.bare.received s (kept actions) = f.received s actions :=
  along_bare (fun _ action _ => by cases action <;> rfl) (fun _ _ _ => rfl) h

end Feed

end ChainHead
