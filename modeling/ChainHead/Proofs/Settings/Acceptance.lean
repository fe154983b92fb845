import ChainHead.Error
import ChainHead.Proofs.Settings.Decoding
import ChainHead.Proofs.Toml.Covering

/-! Which documents are settings. A document that is not nested too deep is accepted if it decodes and there is room for
head events, and the settings are then what it says. It is a fault of the configuration if there is no room and nothing
else is wrong, and a fault of the document in every other case. -/

namespace ChainHead

open Toml (Document)

namespace Settings

variable [Url.Idna] {t : String} {d : Document} {s : Settings} {fault : Fault}

/-! ### Reading -/

theorem read_eq_ok_iff (h : Document.read t = .ok d) : read t = .ok s ↔
    Decodes (.of d.entries) s.node s.requestTimeout s.validatorsTimeout s.reconnectDelay s.headEventBuffer := by
  rw [← ofDocument_eq_ok_iff (Document.tidy_of_readWithin h), read, h]
  dsimp only
  constructor
  · intro hread
    split at hread
    · cases hread
    · rename_i hdecode
      split_ifs at hread
      cases hread
      exact hdecode
  · intro hdecode
    rw [hdecode]
    dsimp only
    rw [dif_pos s.buffer_pos]
    rfl

theorem read_eq_noBuffer_iff (h : Document.read t = .ok d) : read t = .error .noBuffer ↔
    ∃ node request validators reconnect, Decodes (.of d.entries) node request validators reconnect 0 := by
  simp only [← ofDocument_eq_ok_iff (Document.tidy_of_readWithin h)]
  rw [read, h]
  dsimp only
  constructor
  · intro hread
    split at hread
    · cases hread
    · rename_i node request validators reconnect buffer hdecode
      split_ifs at hread with hroom
      · cases hread
      · have hzero : buffer = 0 :=
          UInt64.toNat_inj.mp (Nat.eq_zero_of_not_pos (UInt64.lt_iff_toNat_lt.not.mp hroom))
        exact ⟨node, request, validators, reconnect, hzero ▸ hdecode⟩
  · rintro ⟨node, request, validators, reconnect, hdecode⟩
    rw [hdecode]
    rfl

/-- A text that is not read is at fault itself, unless only the room is missing. -/
theorem eq_noBuffer_or_of_read (h : read t = .error fault) :
    fault = .noBuffer ∨ ∃ reason, fault = .document t reason := by
  rw [read] at h
  split at h
  · cases h
    exact .inr ⟨_, rfl⟩
  · split at h
    · cases h
      exact .inr ⟨_, rfl⟩
    · split_ifs at h
      · cases h
      · cases h
        exact .inl rfl

theorem read_eq_document (h : Document.read t = .error reason) : read t = .error (.document t reason) := by
  rw [read, h]
  rfl

/-! ### Texts -/

/-- What a text comes to when it is read as settings. -/
def ofText (t : String) : Except Error Settings := (read t).mapError .ofSettings

/-- A text that is not read is at fault itself, unless only the room is missing. -/
theorem eq_noBuffer_or_of_ofText {e : Error} (h : ofText t = .error e) :
    e = .config .noBuffer ∨ ∃ fault, e = .toml t fault := by
  rw [ofText] at h
  cases hread : read t with
  | ok s =>
      rw [hread] at h
      cases h
  | error fault =>
      rw [hread] at h
      cases h
      rcases eq_noBuffer_or_of_read hread with rfl | ⟨reason, rfl⟩
      · exact .inl rfl
      · exact .inr ⟨reason, rfl⟩

theorem ofText_of_tooDeep (h : Document.NestedTooDeep t) : ∃ fault, ofText t = .error (.toml t fault) := by
  obtain ⟨fault, hfault, -⟩ := h
  refine ⟨fault, ?_⟩
  rw [ofText, read_eq_document hfault]
  rfl

theorem not_tooDeep_of_ofText {result : Except Error Settings} (h : ofText t = result)
    (hresult : ∀ fault, result ≠ .error (.toml t fault)) : ¬ Document.NestedTooDeep t := by
  intro hdeep
  obtain ⟨fault, hfault⟩ := ofText_of_tooDeep hdeep
  exact hresult fault (h.symm.trans hfault)

theorem ofText_eq_ok_iff (h : Document.Of t d) : ofText t = .ok s ↔ ¬ Document.NestedTooDeep t ∧
    Decodes (.of d.entries) s.node s.requestTimeout s.validatorsTimeout s.reconnectDelay s.headEventBuffer := by
  have hread : ofText t = .ok s ↔ read t = .ok s := by
    rw [ofText]
    cases read t <;> simp [Except.mapError]
  constructor
  · intro hok
    have hshallow := not_tooDeep_of_ofText hok nofun
    exact ⟨hshallow, (read_eq_ok_iff (h.read_or.resolve_right hshallow)).mp (hread.mp hok)⟩
  · rintro ⟨hshallow, hdecodes⟩
    exact hread.mpr ((read_eq_ok_iff (h.read_or.resolve_right hshallow)).mpr hdecodes)

theorem ofText_eq_noBuffer_iff (h : Document.Of t d) : ofText t = .error (.config .noBuffer) ↔
    ¬ Document.NestedTooDeep t ∧ ∃ node request validators reconnect,
      Decodes (.of d.entries) node request validators reconnect 0 := by
  have hread : ofText t = .error (.config .noBuffer) ↔ read t = .error .noBuffer := by
    rw [ofText]
    cases hread : read t with
    | ok s => simp [Except.mapError]
    | error fault => cases fault <;> simp [Except.mapError, Error.ofSettings]
  constructor
  · intro hnone
    have hshallow := not_tooDeep_of_ofText hnone nofun
    exact ⟨hshallow, (read_eq_noBuffer_iff (h.read_or.resolve_right hshallow)).mp (hread.mp hnone)⟩
  · rintro ⟨hshallow, hdecodes⟩
    exact hread.mpr ((read_eq_noBuffer_iff (h.read_or.resolve_right hshallow)).mpr hdecodes)

/-- Settings come from a document, and are what is written there. -/
theorem exists_decodes (h : ofText t = .ok s) : ∃ d, Document.read t = .ok d ∧
    Decodes (.of d.entries) s.node s.requestTimeout s.validatorsTimeout s.reconnectDelay s.headEventBuffer := by
  cases hread : Document.read t with
  | error reason =>
      rw [ofText, read_eq_document hread] at h
      cases h
  | ok d => exact ⟨d, rfl, ((ofText_eq_ok_iff ⟨_, hread⟩).mp h).2⟩

end Settings

end ChainHead
