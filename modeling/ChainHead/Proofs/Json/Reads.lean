import ChainHead.Json.Value

/-! Readers that read what was written. `Reads r bytes a` says that a reader takes exactly some bytes, whatever
stands behind them, and answers with a value. It composes along the sequence of readers as bytes do along theirs,
and along the rounds of a loop. -/

namespace ChainHead.Json

def Position.behind (p : Position) (bytes : List UInt8) : Position := bytes.foldl Position.after p

theorem Position.behind_append (p : Position) (front back : List UInt8) :
    p.behind (front ++ back) = (p.behind front).behind back :=
  List.foldl_append

namespace Reader

variable {α β : Type}

instance : LawfulMonad Reader := by
  refine LawfulMonad.mk' Reader (fun r => ?_) (fun _ _ => rfl) fun r f g => ?_
  · funext c
    change (r >>= pure) c = r c
    rw [bind_apply]
    cases r c <;> rfl
  · funext c
    rw [bind_apply, bind_apply, bind_apply]
    cases r c <;> rfl

theorem ahead_bind_apply {byte : UInt8} (h : isBlank byte = false) (g : Option UInt8 → Reader β) (rest : List UInt8)
    (position : Position) : (ahead >>= g) ⟨byte :: rest, position⟩ = g (some byte) ⟨byte :: rest, position⟩ := by
  have hahead : ahead ⟨byte :: rest, position⟩ = .done (some byte) ⟨byte :: rest, position⟩ := by
    simp only [ahead, blanks, bind_apply, skipBlanksFrom, h, Bool.false_eq_true, if_false]
    rfl
  exact bind_done hahead

/-- A value is read by the reader that its first byte asks for. -/
theorem ahead_bind_congr {byte : UInt8} (h : isBlank byte = false) {g : Option UInt8 → Reader β} {r : Reader β}
    (hr : g (some byte) = r) (rest : List UInt8) (position : Position) :
    (ahead >>= g) ⟨byte :: rest, position⟩ = r ⟨byte :: rest, position⟩ := by
  rw [ahead_bind_apply h, hr]

theorem located_done {r : Reader α} {a : α} {c c' : Cursor} (h : r c = .done a c') :
    located r c = .done a c' := by
  rw [located, h]

theorem enclosed_done {r : Reader α} {close : Reader Unit} {a : α} {c c' c'' : Cursor}
    (hr : r c = .done a c') (hclose : close c' = .done () c'') : enclosed r close c = .done a c'' := by
  have hattempt : attempt r c = .done (.ok a) c' := by rw [attempt, hr]
  exact (bind_done hattempt).trans (bind_done hclose)

/-- A reader takes some bytes, whatever stands behind them, and answers with a value. -/
def Reads (r : Reader α) (bytes : List UInt8) (a : α) : Prop :=
  ∀ rest position, r ⟨bytes ++ rest, position⟩ = .done a ⟨rest, position.behind bytes⟩

namespace Reads

variable {r : Reader α} {f : α → Reader β} {front back bytes : List UInt8} {a : α} {b : β}

theorem pure (a : α) : Reads (pure a) [] a := fun _ _ => rfl

theorem bind (hr : Reads r front a) (hf : Reads (f a) back b) : Reads (r >>= f) (front ++ back) b := by
  intro rest position
  rw [List.append_assoc, bind_done (hr _ _), hf, Position.behind_append]

theorem map (hr : Reads r bytes a) (g : α → β) : Reads (g <$> r) bytes (g a) := by
  intro rest position
  exact bind_done (hr rest position)

theorem eat (byte : UInt8) : Reads eat [byte] () := fun _ _ => rfl

/-- Behind its first byte a value is read by what that byte asks for. -/
theorem eat_bind {g : Unit → Reader β} {byte : UInt8} (hg : Reads (g ()) bytes b) :
    Reads (Reader.eat >>= g) (byte :: bytes) b :=
  (eat byte).bind hg

theorem next_bind {g : Option UInt8 → Reader β} {byte : UInt8} (hg : Reads (g (some byte)) bytes b) :
    Reads (next >>= g) (byte :: bytes) b := by
  intro rest position
  exact hg rest (position.after byte)

theorem ahead_bind {g : Option UInt8 → Reader β} {byte : UInt8} (hbyte : isBlank byte = false)
    (hg : Reads (g (some byte)) (byte :: bytes) b) : Reads (ahead >>= g) (byte :: bytes) b := by
  intro rest position
  rw [List.cons_append, ahead_bind_apply hbyte]
  exact hg rest position

theorem located (hr : Reads r bytes a) : Reads (located r) bytes a := by
  intro rest position
  exact located_done (hr rest position)

end Reads

/-! ### Loops -/

/-- A step leads in rounds, each of which reads something, to an answer. -/
inductive Rounds (step : α → Reader (α ⊕ β)) : α → Cursor → β → Cursor → Prop
  | last {s : α} {c c' : Cursor} {b : β} (h : step s c = .done (.inr b) c') : Rounds step s c b c'
  | more {s s' : α} {c c' c'' : Cursor} {b : β} (h : step s c = .done (.inl s') c')
      (hless : c'.rest.length < c.rest.length) (rest : Rounds step s' c' b c'') : Rounds step s c b c''

theorem iterate_of_rounds {step : α → Reader (α ⊕ β)} {s : α} {c c' : Cursor} {b : β}
    (h : Rounds step s c b c') (fuel : List UInt8) (hfuel : c.rest.length < fuel.length) :
    iterate step fuel s c = .done b c' := by
  induction h generalizing fuel with
  | last h =>
      cases fuel with
      | nil => simp at hfuel
      | cons _ fuel => exact bind_done h
  | more h hless _ ih =>
      cases fuel with
      | nil => simp at hfuel
      | cons _ fuel =>
          rw [List.length_cons] at hfuel
          rw [iterate, bind_done h]
          exact ih fuel (by omega)

theorem loop_of_rounds {step : α → Reader (α ⊕ β)} {s : α} {c c' : Cursor} {b : β}
    (h : Rounds step s c b c') : loop step s c = .done b c' :=
  iterate_of_rounds h _ (by simp)

/-- A round that reads something, in front of other rounds. -/
theorem Rounds.of_reads {step : α → Reader (α ⊕ β)} {s s' : α} {bytes rest : List UInt8} {position : Position}
    {c : Cursor} {b : β} (hstep : Reads (step s) bytes (.inl s')) (hbytes : bytes ≠ [])
    (hrest : Rounds step s' ⟨rest, position.behind bytes⟩ b c) :
    Rounds step s ⟨bytes ++ rest, position⟩ b c := by
  refine .more (hstep rest position) ?_ hrest
  rw [List.length_append]
  exact Nat.lt_add_of_pos_left (List.length_pos_iff.mpr hbytes)

/-! ### Words, ends and separators -/

theorem reads_word (word : List UInt8) : Reads (Reader.word word) word () := by
  induction word with
  | nil => exact Reads.pure ()
  | cons b rest ih =>
      refine Reads.next_bind ?_
      dsimp only
      rw [if_pos rfl]
      exact ih

theorem reads_colon : Reads colon [0x3a] () :=
  Reads.ahead_bind rfl (Reads.eat 0x3a)

theorem reads_endRecord : Reads endRecord [0x7d] () :=
  Reads.ahead_bind rfl (Reads.eat 0x7d)

end Reader

end ChainHead.Json
