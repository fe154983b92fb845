import ChainHead.Proofs.Text.Hex
import ChainHead.Proofs.Wire.RoundTrip

/-! The kinds of values that records are made of. What is written for each of them is read back: flags, byte strings,
keys, values that may be missing, and lists of any of these. A codec that restores all of its values passes this on to
the lists and records that are built with it, at the price of one level. -/

namespace ChainHead.Wire

open Json Reader

variable {α : Type}

/-- A reader takes some bytes as a value, if what stands behind them can not go on with it. -/
def ReadsItem (r : Reader α) (bytes : List UInt8) (a : α) : Prop :=
  ∀ rest position, endsValue rest = true → r ⟨bytes ++ rest, position⟩ = .done a ⟨rest, position.behind bytes⟩

/-- Whether bytes begin as an item of a list can: with no blank, and not with the end of the list. -/
def startsItem : List UInt8 → Bool
  | [] => false
  | b :: _ => !isBlank b && b != 0x5d

theorem exists_of_startsItem {bytes : List UInt8} (h : startsItem bytes = true) :
    ∃ b more, bytes = b :: more ∧ isBlank b = false ∧ b ≠ 0x5d := by
  cases bytes with
  | nil => cases h
  | cons b more => exact ⟨b, more, rfl, by simpa [startsItem] using h⟩

/-! ### Lists -/

section

variable {r : Reader α} {write : α → List Char} {bytes : List UInt8} {items : List α}

/-- Before an item the comma that parts it from the ones in front is read, if there are any in front. -/
theorem nextItem_of_startsItem (first : Bool) (h : startsItem bytes = true) (position : Position) :
    nextItem first ⟨Utf8.encode (if first then [] else [',']) ++ bytes, position⟩ =
      .done true ⟨bytes, position.behind (Utf8.encode (if first then [] else [',']))⟩ := by
  obtain ⟨b, more, rfl, hblank, hend⟩ := exists_of_startsItem h
  cases first with
  | true =>
      refine (ahead_bind_apply hblank _ more position).trans ?_
      dsimp only
      rw [if_neg hend, if_pos rfl]
      rfl
  | false =>
      have hcomma : eat ⟨0x2c :: b :: more, position⟩ = .done () ⟨b :: more, position.after 0x2c⟩ := rfl
      have hnoBlank : isBlank 0x2c = false := rfl
      refine (ahead_bind_apply hnoBlank _ (b :: more) position).trans ?_
      refine (bind_done hcomma).trans ?_
      refine (ahead_bind_apply hblank _ more (position.after 0x2c)).trans ?_
      simp only
      rfl

theorem nextItem_end (first : Bool) (rest : List UInt8) (position : Position) :
    nextItem first ⟨0x5d :: rest, position⟩ = .done false ⟨0x5d :: rest, position⟩ := by
  cases first <;> rfl

theorem itemStep_item {a : α} (ha : ReadsItem r (Utf8.encode (write a)) a)
    (hstart : startsItem (Utf8.encode (write a)) = true) (seen : List α) {rest : List UInt8} (position : Position)
    (hrest : endsValue rest = true) :
    itemStep r seen ⟨Utf8.encode ((if seen.isEmpty then [] else [',']) ++ write a) ++ rest, position⟩ =
      .done (.inl (a :: seen))
        ⟨rest, position.behind (Utf8.encode ((if seen.isEmpty then [] else [',']) ++ write a))⟩ := by
  have hstart' : startsItem (Utf8.encode (write a) ++ rest) = true := by
    obtain ⟨b, more, hbytes, hb⟩ := exists_of_startsItem hstart
    rw [hbytes, List.cons_append]
    simpa [startsItem] using hb
  rw [Utf8.encode_append, List.append_assoc, Position.behind_append, itemStep,
    bind_done (nextItem_of_startsItem seen.isEmpty hstart' position)]
  exact bind_done (ha rest _ hrest)

/-- The items of a list are read one after the other, up to the end of the list. -/
theorem rounds_items (hitems : ∀ a ∈ items, ReadsItem r (Utf8.encode (write a)) a)
    (hstart : ∀ a ∈ items, startsItem (Utf8.encode (write a)) = true) (seen : List α) (rest : List UInt8)
    (position : Position) :
    Rounds (itemStep r) seen
      ⟨Utf8.encode (Fields.behind seen.isEmpty (items.map write)) ++ 0x5d :: rest, position⟩ (seen.reverse ++ items)
      ⟨0x5d :: rest, position.behind (Utf8.encode (Fields.behind seen.isEmpty (items.map write)))⟩ := by
  induction items generalizing seen position with
  | nil =>
      have hnone : Fields.behind seen.isEmpty (([] : List α).map write) = [] := by
        cases seen.isEmpty <;> rfl
      rw [hnone, List.append_nil]
      exact .last (bind_done (nextItem_end seen.isEmpty rest position))
  | cons a items ih =>
      obtain ⟨ha, hitems⟩ := List.forall_mem_cons.mp hitems
      obtain ⟨hfirst, hstart⟩ := List.forall_mem_cons.mp hstart
      have hmore := ih hitems hstart (a :: seen)
        (position.behind (Utf8.encode ((if seen.isEmpty then [] else [',']) ++ write a)))
      rw [List.reverse_cons, List.append_assoc, List.singleton_append, List.isEmpty_cons] at hmore
      rw [List.map_cons, Fields.behind_cons, Utf8.encode_append, List.append_assoc, Position.behind_append]
      refine .more (itemStep_item ha hfirst seen position (Fields.endsValue_behind _ rfl)) ?_ hmore
      obtain ⟨b, more, hbytes, -⟩ := exists_of_startsItem hfirst
      simp only [Utf8.encode_append, hbytes, List.length_append, List.length_cons]
      omega

theorem reads_endList : Reads endList [0x5d] () :=
  Reads.ahead_bind rfl (Reads.eat 0x5d)

/-- The inside and the end of a list are read as its items. -/
theorem enclosed_items_done (hitems : ∀ a ∈ items, ReadsItem r (Utf8.encode (write a)) a)
    (hstart : ∀ a ∈ items, startsItem (Utf8.encode (write a)) = true) (rest : List UInt8) (position : Position) :
    enclosed (Reader.items r) endList ⟨Utf8.encode (separated (items.map write)) ++ 0x5d :: rest, position⟩ =
      .done items ⟨rest, position.behind (Utf8.encode (separated (items.map write)) ++ [0x5d])⟩ := by
  have hloop := loop_of_rounds (rounds_items hitems hstart [] rest position)
  rw [Position.behind_append]
  exact enclosed_done hloop (reads_endList rest _)

end

/-! ### Codecs that restore all of their values -/

/-- All values of a codec are read back, with so many levels at least, and can be items of a list. -/
structure Codec.Restores (c : Codec α) (depth : Nat) : Prop where
  readsBack : ∀ a, c.ReadsBack depth a
  startsItem : ∀ a, startsItem (Utf8.encode (c.write a)) = true

/-- A codec that writes strings, each of which its reader takes. -/
theorem restores_of_writeText {c : Codec α} (text : α → String) (hwrite : ∀ a, c.write a = writeText (text a).toList)
    (hreads : ∀ a levels, Reads (c.read levels) (Utf8.encode (writeText (text a).toList)) a) (depth : Nat) :
    c.Restores depth where
  readsBack a levels _ rest position _ := by
    rw [hwrite a]
    exact hreads a levels rest position
  startsItem a := by
    rw [hwrite a, encode_writeText]
    rfl

theorem text_restores (depth : Nat) : text.Restores depth :=
  restores_of_writeText id (fun _ => rfl) reads_textRead depth

theorem quoted_restores (depth : Nat) : quoted.Restores depth where
  readsBack n levels _ := quoted_readsBack n levels (Nat.zero_le levels)
  startsItem n := by
    rw [write_quoted, encode_writeText]
    rfl

theorem viaText_restores {make : String → α} {text : α → String} (h : ∀ a, make (text a) = a) (depth : Nat) :
    (viaText make text).Restores depth := by
  refine restores_of_writeText text (fun _ => rfl) (fun a levels => ?_) depth
  have hread := (reads_textRead (text a) levels).map make
  rwa [h a] at hread

/-! ### Byte strings -/

theorem isEscaped_of_mem_encode {bytes : List UInt8} {c : Char} (h : c ∈ Hex.encode bytes) : isEscaped c = false := by
  have hunescaped := Hex.forall_mem_encode (p := fun c => !isEscaped c) (by decide) (by decide) bytes c h
  simpa using hunescaped

theorem writeText_encode (bytes : List UInt8) :
    writeText (String.ofList (Hex.encode bytes)).toList = '"' :: Hex.encode bytes ++ ['"'] := by
  rw [String.toList_ofList, writeText, flatMap_escapeChar fun c hc => isEscaped_of_mem_encode hc]

theorem exactly_toList {size : Nat} (v : Vector UInt8 size) : exactly size v.toList = some v := by
  rw [exactly, dif_pos v.length_toList]
  rfl

theorem fixed_restores (size depth : Nat) : (fixed size).Restores depth := by
  refine restores_of_writeText (fun v => String.ofList (Hex.encode v.toList)) (fun v => (writeText_encode _).symm)
    (fun v levels => reads_readForm_text ?_ levels) depth
  have hread := Hex.decodeSized_encode v.toList
  rw [Vector.length_toList] at hread
  dsimp only
  rw [hread]
  dsimp only
  rw [exactly_toList]

theorem blob_restores (depth : Nat) : blob.Restores depth := by
  refine restores_of_writeText (fun bytes => String.ofList (Hex.encode bytes))
    (fun bytes => (writeText_encode bytes).symm) (fun bytes levels => reads_readForm_text ?_ levels) depth
  dsimp only
  rw [Hex.decode_encode]

/-! ### Flags, missing values and lists -/

theorem flag_restores (depth : Nat) : flag.Restores depth where
  readsBack b levels _ rest position _ := by
    have htrue : Reads (flag.read levels) [0x74, 0x72, 0x75, 0x65] true :=
      .located (Reads.ahead_bind rfl (Reads.eat_bind ((reads_word _).bind (Reads.pure true))))
    have hfalse : Reads (flag.read levels) [0x66, 0x61, 0x6c, 0x73, 0x65] false :=
      .located (Reads.ahead_bind rfl (Reads.eat_bind ((reads_word _).bind (Reads.pure false))))
    cases b with
    | true => exact htrue rest position
    | false => exact hfalse rest position
  startsItem b := by cases b <;> rfl

theorem list_restores {c : Codec α} {depth : Nat} (h : c.Restores depth) : (list c).Restores (depth + 1) where
  readsBack items levels hlevels rest position _ := by
    obtain ⟨inner, rfl⟩ : ∃ inner, levels = inner + 1 := ⟨levels - 1, by omega⟩
    have hread : ∀ a ∈ items, ReadsItem (c.read inner) (Utf8.encode (c.write a)) a :=
      fun a _ => h.readsBack a inner (Nat.le_of_succ_le_succ hlevels)
    have hitems := enclosed_items_done hread (fun a _ => h.startsItem a) rest (position.after 0x5b)
    have hwrite : Utf8.encode ((list c).write items) =
        0x5b :: (Utf8.encode (separated (items.map c.write)) ++ [0x5d]) := by
      change Utf8.encode ('[' :: separated (items.map c.write) ++ [']']) = _
      rw [List.cons_append, Utf8.encode_cons, Utf8.encode_append]
      rfl
    rw [hwrite, Position.behind, List.foldl_cons, ← Position.behind, List.cons_append, List.append_assoc]
    apply located_done
    rw [ahead_bind_apply rfl]
    exact hitems
  startsItem items := rfl

/-- A value that may be missing can not look like one that is. -/
theorem optional_restores {c : Codec α} {depth : Nat} (h : c.Restores depth)
    (hpresent : ∀ a, (Utf8.encode (c.write a)).head? ≠ some 0x6e) : (optional c).Restores depth where
  readsBack a levels hlevels rest position hrest := by
    cases a with
    | none =>
        have hnull : Reads ((optional c).read levels) [0x6e, 0x75, 0x6c, 0x6c] none :=
          Reads.ahead_bind rfl (Reads.eat_bind ((reads_word _).bind (Reads.pure none)))
        exact hnull rest position
    | some a =>
        have hread := h.readsBack a levels hlevels rest position hrest
        obtain ⟨b, more, hbytes, hblank, -⟩ := exists_of_startsItem (h.startsItem a)
        have hb : b ≠ 0x6e := by
          have hhead := hpresent a
          rw [hbytes] at hhead
          exact fun heq => hhead (congrArg some heq)
        have hwrite : (optional c).write (some a) = c.write a := rfl
        rw [hwrite]
        rw [hbytes] at hread ⊢
        refine (ahead_bind_apply hblank _ (more ++ rest) position).trans ?_
        have hmatch : some b = some 0x6e → False := fun heq => hb (Option.some.inj heq)
        simp only
        exact bind_done hread
  startsItem a := by
    cases a with
    | none => rfl
    | some a => exact h.startsItem a

/-! ### Records -/

/-- The codecs of all fields restore their values. -/
def Fields.Restore (depth : Nat) : {τ : Type} → Fields τ → Prop
  | _, .nil => True
  | _, .cons _ codec _ others => codec.Restores depth ∧ others.Restore depth

theorem Fields.Restore.readBack {depth : Nat} {τ : Type} {fs : Fields τ} (h : fs.Restore depth) (values : τ) :
    fs.ReadBack depth values := by
  induction fs with
  | nil => trivial
  | cons name codec absence others ih =>
      obtain ⟨a, values⟩ := values
      exact ⟨h.1.readsBack a, ih h.2 values⟩

theorem record_restores {τ : Type} {name : String} {fs : Fields τ} {make : τ → α} {parts : α → τ} {depth : Nat}
    (hnames : fs.names.Nodup) (hfields : fs.Restore depth) (hmake : ∀ a, make (parts a) = a) :
    (record name fs make parts).Restores (depth + 1) where
  readsBack a := record_readsBack hnames (hfields.readBack (parts a)) (hmake a)
  startsItem _ := rfl

end ChainHead.Wire
