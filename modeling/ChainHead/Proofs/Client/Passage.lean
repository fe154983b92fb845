import ChainHead.Proofs.Client.Publication
import ChainHead.Proofs.Client.Requests
import ChainHead.Proofs.Wire.ByteStrings
import ChainHead.Proofs.Wire.Faithful
import ChainHead.Proofs.Wire.Meanings
import ChainHead.Proofs.Wire.Parts

/-! What a block that was read is handed in as. The text that is posted has the same parts as the text that was read:
numbers in decimal, byte strings in hexadecimal, and the body with its meaning, at every depth. It decodes to the same
block again. Parts are found in both texts by the grammar and by no reader, whether the text has them as members, in any
order, or as the items of lists. -/

namespace ChainHead

open Json Reader Wire

/-- The values that are the parts of the text of a signed block. -/
structure BlockParts where
  slot : List UInt8
  proposerIndex : List UInt8
  parentRoot : List UInt8
  stateRoot : List UInt8
  body : List UInt8
  signature : List UInt8

namespace BlockParts

/-- The message of a signed block and the parts in it. -/
structure Of (p : BlockParts) (v message : List UInt8) : Prop where
  isMessage : IsPart "message" 0 v message
  slot : IsPart "slot" 0 message p.slot
  proposerIndex : IsPart "proposer_index" 1 message p.proposerIndex
  parentRoot : IsPart "parent_root" 2 message p.parentRoot
  stateRoot : IsPart "state_root" 3 message p.stateRoot
  body : IsPart "body" 4 message p.body
  signature : IsPart "signature" 1 v p.signature

/-- These are the parts of a text. -/
def In (p : BlockParts) (v : List UInt8) : Prop := ∃ message, p.Of v message

/-- One value stands for something, and nothing else, and the other is the string that is written for it. -/
def Rewritten {α : Type} (spells : List UInt8 → α → Prop) (write : α → List Char) (v v' : List UInt8) : Prop :=
  ∃ a, (∀ other, spells v other ↔ other = a) ∧ v' = bareText (write a)

/-- Two values mean the same, and nothing else. -/
def SameMeaning (v v' : List UInt8) : Prop :=
  ∃ w, (∀ other, Means v other ↔ other = w) ∧ ∀ other, Means v' other ↔ other = w

/-- How the parts of a block are passed on. -/
structure PassedAs (p q : BlockParts) : Prop where
  slot : Rewritten SpellsNumber (fun n => Numeral.digits n.toNat) p.slot q.slot
  proposerIndex : Rewritten SpellsNumber (fun n => Numeral.digits n.toNat) p.proposerIndex q.proposerIndex
  parentRoot : Rewritten (SpellsSized 32) Hex.encode p.parentRoot q.parentRoot
  stateRoot : Rewritten (SpellsSized 32) Hex.encode p.stateRoot q.stateRoot
  body : SameMeaning p.body q.body
  signature : Rewritten SpellsBytes Hex.encode p.signature q.signature

/-! ### The parts of a block that was read -/

/-- The parts of a text are taken as what a block consists of. -/
structure TakenAs (p : BlockParts) (block : SignedBlock) : Prop where
  slot : TakesItem (quoted.read 125) p.slot block.message.slot
  proposerIndex : TakesItem (quoted.read 125) p.proposerIndex block.message.proposerIndex
  parentRoot : TakesItem ((fixed 32).read 125) p.parentRoot block.message.parentRoot
  stateRoot : TakesItem ((fixed 32).read 125) p.stateRoot block.message.stateRoot
  body : TakesItem (Reader.value 125) p.body block.message.body
  signature : TakesItem (blob.read 126) p.signature block.signature

section

variable {i : Item} {v message : List UInt8} {block : SignedBlock} {p : BlockParts}

theorem takesItem_of_decode (hvalue : IsValue i.value) (hsound : ¬Torn SignedBlock.codec i.value)
    (hread : SignedBlock.codec.decode i.text = .ok block) : TakesItem (SignedBlock.codec.read 127) i.value block :=
  (decodeAt_eq_ok_iff (SignedBlock.wellFormed.settles.skipsBlanks 127)
    (SignedBlock.wellFormed.settles.settlesItem 127 hvalue hsound) i.blanks_before i.blanks_behind).mp hread

theorem takesItem_message (hsound : ¬Torn SignedBlock.codec v)
    (htakes : TakesItem (SignedBlock.codec.read 127) v block) (hmessage : IsPart "message" 0 v message) :
    TakesItem (ProposedBlock.codec.read 126) message block.message ∧ ¬Torn ProposedBlock.codec message :=
  ⟨takesItem_of_isPart (l := SignedBlock.layout) SignedBlock.wellFormed .here
    (fun _ => rfl) hsound htakes hmessage, not_torn_of_isPart (l := SignedBlock.layout) .here hsound hmessage⟩

theorem exists_in (hvalue : IsValue v) (hsound : ¬Torn SignedBlock.codec v)
    (htakes : TakesItem (SignedBlock.codec.read 127) v block) : ∃ p : BlockParts, p.In v := by
  have hsigned {β : Type} {name : String} {codec : Codec β} {place : Nat}
      (hfield : SignedBlock.layout.fields.Has name codec place) : ∃ part, IsPart name place v part :=
    exists_isPart SignedBlock.wellFormed ⟨rfl, rfl, rfl, rfl, trivial⟩ hfield hvalue hsound htakes
  obtain ⟨message, hmessage⟩ := hsigned .here
  obtain ⟨signature, hsignature⟩ := hsigned (.there .here)
  obtain ⟨htakes, hsound⟩ := takesItem_message hsound htakes hmessage
  have hproposed {β : Type} {name : String} {codec : Codec β} {place : Nat}
      (hfield : ProposedBlock.layout.fields.Has name codec place) : ∃ part, IsPart name place message part :=
    exists_isPart ProposedBlock.wellFormed ⟨rfl, rfl, rfl, rfl, rfl, rfl, rfl, rfl, rfl, rfl, trivial⟩ hfield
      hmessage.isValue hsound htakes
  obtain ⟨slot, hslot⟩ := hproposed .here
  obtain ⟨proposerIndex, hproposerIndex⟩ := hproposed (.there .here)
  obtain ⟨parentRoot, hparentRoot⟩ := hproposed (.there (.there .here))
  obtain ⟨stateRoot, hstateRoot⟩ := hproposed (.there (.there (.there .here)))
  obtain ⟨body, hbody⟩ := hproposed (.there (.there (.there (.there .here))))
  exact ⟨⟨slot, proposerIndex, parentRoot, stateRoot, body, signature⟩, message, hmessage, hslot, hproposerIndex,
    hparentRoot, hstateRoot, hbody, hsignature⟩

theorem In.takenAs (hp : p.In v) (hsound : ¬Torn SignedBlock.codec v)
    (htakes : TakesItem (SignedBlock.codec.read 127) v block) : p.TakenAs block := by
  obtain ⟨message, hp⟩ := hp
  obtain ⟨hmessage, hsoundMessage⟩ := takesItem_message hsound htakes hp.isMessage
  have hfield {β : Type} {name : String} {c : Codec β} {place : Nat} {get : ProposedBlock.layout.τ → β}
      {put : β → ProposedBlock.layout.τ → ProposedBlock.layout.τ} {field : ProposedBlock → β} {part : List UInt8}
      (hat : ProposedBlock.layout.fields.At name c place get put)
      (hmake : ∀ values, field (ProposedBlock.layout.make values) = get values) (hpart : IsPart name place message part) :
      TakesItem (c.read 125) part (field block.message) :=
    takesItem_of_isPart ProposedBlock.wellFormed hat hmake hsoundMessage hmessage hpart
  exact {
    slot := hfield .here (fun _ => rfl) hp.slot
    proposerIndex := hfield (.there .here) (fun _ => rfl) hp.proposerIndex
    parentRoot := hfield (.there (.there .here)) (fun _ => rfl) hp.parentRoot
    stateRoot := hfield (.there (.there (.there .here))) (fun _ => rfl) hp.stateRoot
    body := hfield (c := anything) (.there (.there (.there (.there .here)))) (fun _ => rfl) hp.body
    signature := takesItem_of_isPart (l := SignedBlock.layout) SignedBlock.wellFormed
      (.there .here) (fun _ => rfl) hsound htakes hp.signature }

end

/-! ### The parts of the text that is posted -/

/-- The parts of the text that is written for a block. -/
def written (block : SignedBlock) : BlockParts where
  slot := bareText (Numeral.digits block.message.slot.toNat)
  proposerIndex := bareText (Numeral.digits block.message.proposerIndex.toNat)
  parentRoot := bareText (Hex.encode block.message.parentRoot.toList)
  stateRoot := bareText (Hex.encode block.message.stateRoot.toList)
  body := Utf8.encode block.message.body.write
  signature := bareText (Hex.encode block.signature)

/-- All parts are values. -/
structure AreValues (p : BlockParts) : Prop where
  slot : IsValue p.slot
  proposerIndex : IsValue p.proposerIndex
  parentRoot : IsValue p.parentRoot
  stateRoot : IsValue p.stateRoot
  body : IsValue p.body
  signature : IsValue p.signature

theorem areValues_written {block : SignedBlock} (hbody : IsValue (written block).body) : (written block).AreValues := by
  have hnumber (n : UInt64) : IsValue (bareText (Numeral.digits n.toNat)) :=
    isValue_bareText fun c hc => isEscaped_of_isDigit (Numeral.isDigit_of_mem_digits hc)
  exact ⟨hnumber _, hnumber _, isValue_hex _, isValue_hex _, hbody, isValue_hex _⟩

/-- The members of a message with these parts. -/
def inside (p : BlockParts) : List (String × List UInt8) :=
  [("slot", p.slot), ("proposer_index", p.proposerIndex), ("parent_root", p.parentRoot), ("state_root", p.stateRoot),
    ("body", p.body)]

/-- The members of a block with these parts. -/
def outside (p : BlockParts) : List (String × List UInt8) :=
  [("message", writtenRecord p.inside), ("signature", p.signature)]

/-- The text that is written with these parts. -/
def text (p : BlockParts) : List UInt8 := writtenRecord p.outside

section

variable {p : BlockParts}

theorem AreValues.inside (h : p.AreValues) : ∀ m ∈ p.inside, IsValue m.2 := by
  simp only [BlockParts.inside, List.forall_mem_cons]
  exact ⟨h.slot, h.proposerIndex, h.parentRoot, h.stateRoot, h.body, fun _ h => nomatch h⟩

theorem AreValues.outside (h : p.AreValues) : ∀ m ∈ p.outside, IsValue m.2 := by
  simp only [BlockParts.outside, List.forall_mem_cons]
  exact ⟨isValue_writtenRecord h.inside, h.signature, fun _ h => nomatch h⟩

theorem AreValues.isValue_text (h : p.AreValues) : IsValue p.text := isValue_writtenRecord h.outside

theorem AreValues.in_text (h : p.AreValues) : p.In p.text :=
  ⟨writtenRecord p.inside, {
    isMessage := isPart_writtenRecord h.outside (by simp [BlockParts.outside]) 0
    slot := isPart_writtenRecord h.inside (by simp [BlockParts.inside]) 0
    proposerIndex := isPart_writtenRecord h.inside (by simp [BlockParts.inside]) 1
    parentRoot := isPart_writtenRecord h.inside (by simp [BlockParts.inside]) 2
    stateRoot := isPart_writtenRecord h.inside (by simp [BlockParts.inside]) 3
    body := isPart_writtenRecord h.inside (by simp [BlockParts.inside]) 4
    signature := isPart_writtenRecord h.outside (by simp [BlockParts.outside]) 1 }⟩

end

/-- The parts of a block that was read are passed on as its parts are written. -/
theorem In.passedAs {v : List UInt8} {block : SignedBlock} {p : BlockParts} (hp : p.In v) (htaken : p.TakenAs block)
    (hexact : IsExact p.body) (htidy : block.message.body.Tidy 125) : p.PassedAs (written block) := by
  obtain ⟨message, hp⟩ := hp
  have hmeans : Means p.body block.message.body := hexact.means htaken.body
  exact {
    slot := ⟨_, fun _ => spellsNumber_iff hp.slot.isValue htaken.slot, rfl⟩
    proposerIndex := ⟨_, fun _ => spellsNumber_iff hp.proposerIndex.isValue htaken.proposerIndex, rfl⟩
    parentRoot := ⟨_, fun _ => spellsSized_iff hp.parentRoot.isValue htaken.parentRoot, rfl⟩
    stateRoot := ⟨_, fun _ => spellsSized_iff hp.stateRoot.isValue htaken.stateRoot, rfl⟩
    body := ⟨_, fun _ => hmeans.iff, fun _ => (means_write htidy hmeans.isWhole).iff⟩
    signature := ⟨_, fun _ => spellsBytes_iff hp.signature.isValue htaken.signature, rfl⟩ }

end BlockParts

namespace Client

/-- The text that is posted for a block. -/
def posted (block : SignedBlock) : List UInt8 := Utf8.encode (blockText block).toList

theorem posted_eq_encode (block : SignedBlock) : posted block = SignedBlock.codec.encode block := by
  rw [posted, blockText, String.toList_ofList, Codec.encode]

theorem posted_eq_text (block : SignedBlock) : posted block = (BlockParts.written block).text := by
  have hmessage : Utf8.encode (ProposedBlock.codec.write block.message) =
      writtenRecord (BlockParts.written block).inside := by
    refine (encode_record [("slot", quoted.write block.message.slot),
      ("proposer_index", quoted.write block.message.proposerIndex),
      ("parent_root", (fixed 32).write block.message.parentRoot),
      ("state_root", (fixed 32).write block.message.stateRoot), ("body", block.message.body.write)]).trans ?_
    simp only [List.map_cons, List.map_nil, quoted, fixed, encode_quoted]
    rfl
  rw [posted, blockText, String.toList_ofList]
  refine (encode_record [("message", ProposedBlock.codec.write block.message),
    ("signature", blob.write block.signature)]).trans ?_
  simp only [List.map_cons, List.map_nil, hmessage, blob, encode_quoted]
  rfl

/-- What a client posts first for a block is the text of the block, and a block is not published without it. -/
theorem first_request_publishBlock [Url.Idna] (c : Client) (block : SignedBlock) (network : Http.Network) :
    (∀ first ∈ (c.publishBlock block network).requests.head?,
      first.method = .post ∧ first.body = some (blockText block)) ∧
    ∀ status, (c.publishBlock block network).result = .ok status → (c.publishBlock block network).requests ≠ [] := by
  cases hurl : Endpoint.blocks.url c.url with
  | error fault =>
      rw [publishBlock, hurl]
      constructor
      · intro first hfirst
        cases hfirst
      · intro status hstatus
        cases hstatus
  | ok url =>
      rw [publishBlock_eq hurl]
      constructor
      · intro first hfirst
        obtain rfl := Http.eq_of_mem_head?_send hfirst
        exact ⟨rfl, rfl⟩
      · intro status hstatus hnone
        obtain ⟨method, response, houtcome, -, -⟩ := Fetch.response_of_call hstatus
        obtain ⟨turns, hops, last, -, -, -, -, -, hrequests, -⟩ := Http.leads_of_send houtcome
        have hsent : (Http.send c.requestTimeout.toNat (handIn url block) network).requests = [] := hnone
        rw [hrequests] at hsent
        exact List.append_ne_nil_of_right_ne_nil _ (List.cons_ne_nil last []) hsent

end Client

section

open Client BlockParts

/-- A block that was read is posted as a text with the same parts, which decodes to the same block again. A body with
nothing but integers that fit 64 bits in it keeps its meaning. -/
theorem block_is_passed_on [Url.Idna] {i : Item} (hvalue : IsValue i.value)
    (hsound : ¬Torn SignedBlock.codec i.value) {block : SignedBlock}
    (hread : SignedBlock.codec.decode i.text = .ok block) :
    (∃ p : BlockParts, p.In i.value) ∧
    (∀ p : BlockParts, p.In i.value → IsExact p.body →
      IsValue (posted block) ∧ (∃ q : BlockParts, q.In (posted block) ∧ p.PassedAs q) ∧
        SignedBlock.codec.decode (posted block) = .ok block) ∧
    ∀ (c : Client) (network : Http.Network),
      (∀ first ∈ (c.publishBlock block network).requests.head?,
        first.method = .post ∧ first.body = some (blockText block)) ∧
      ∀ status, (c.publishBlock block network).result = .ok status → (c.publishBlock block network).requests ≠ [] := by
  have htakes := takesItem_of_decode hvalue hsound hread
  refine ⟨exists_in hvalue hsound htakes, fun p hp hexact => ?_, fun c => first_request_publishBlock c block⟩
  have htidy := SignedBlock.tidy_of_decode hread
  have htaken := hp.takenAs hsound htakes
  -- a body that means something has no real number in it, so what is written for it means the same
  have hwhole : IsWhole block.message.body := (hexact.means htaken.body).isWhole
  have hbody : IsValue (written block).body := (means_write htidy hwhole).isValue
  have hvalues := areValues_written hbody
  have hdecode := SignedBlock.faithfulOn_isReadWhole.decode_encode block ⟨⟨_, hread⟩, hwhole⟩
  rw [← posted_eq_encode] at hdecode
  refine ⟨?_, ⟨written block, ?_, hp.passedAs htaken hexact htidy⟩, hdecode⟩
  · rw [posted_eq_text]
    exact hvalues.isValue_text
  · rw [posted_eq_text]
    exact hvalues.in_text

/-- The parts of a block with numbers of both kinds, a root in capital letters, and a body in which a key is repeated
and one is spelled with an escape. -/
def scatteredParts : BlockParts where
  slot := [0x37]
  proposerIndex := bareText ['+', '0', '3']
  parentRoot := bareText ('0' :: 'X' :: List.replicate 64 'A')
  stateRoot := bareText ('0' :: 'x' :: List.replicate 64 '0')
  body := recordText [0x20] [
    .bare "z" [0x30] (by decide),
    ⟨[], [0x5c, 0x75, 0x30, 0x30, 0x36, 0x31], [0x20],
      .bare (stringText [0x5c, 0x75, 0x64, 0x38, 0x33, 0x64, 0x5c, 0x75, 0x64, 0x65, 0x30, 0x30]), blanks_nil,
      .unit (by decide) .nil, by decide⟩,
    .bare "z" (recordText [] [
      .bare "low" (0x2d :: Utf8.encode (Numeral.digits 0x8000000000000000)) (by decide),
      .bare "high" (Utf8.encode (Numeral.digits 0xffffffffffffffff)) (by decide)]) (by decide)]
  signature := bareText ['0', 'x', 'F', 'f']

/-- The parts that are posted for them. -/
def gatheredParts : BlockParts where
  slot := bareText ['7']
  proposerIndex := bareText ['3']
  parentRoot := bareText ('0' :: 'x' :: List.replicate 64 'a')
  stateRoot := bareText ('0' :: 'x' :: List.replicate 64 '0')
  body := recordText [] [
    .bare "a" (bareText [Char.ofNat 0x1f600]) (by decide),
    .bare "z" (recordText [] [
      .bare "high" (Utf8.encode (Numeral.digits 0xffffffffffffffff)) (by decide),
      .bare "low" (0x2d :: Utf8.encode (Numeral.digits 0x8000000000000000)) (by decide)]) (by decide)]
  signature := bareText ['0', 'x', 'f', 'f']

theorem isExact_scatteredParts : IsExact scatteredParts.body := by
  have hlow : IsExact (0x2d :: Utf8.encode (Numeral.digits 0x8000000000000000)) :=
    .negative (isInteger_encode_digits _) (by rw [goOn_encode_digits]; decide) (by rw [goOn_encode_digits])
  have hhigh : IsExact (Utf8.encode (Numeral.digits 0xffffffffffffffff)) :=
    .natural (isInteger_encode_digits _) (by rw [goOn_encode_digits]; decide)
  refine .record (by decide) (List.forall_mem_cons.mpr ⟨.natural .zero (by decide), List.forall_mem_cons.mpr ⟨?_, ?_⟩⟩)
  · exact .text (.unit (by decide) (.unit (by decide) .nil))
  · exact List.forall_mem_singleton.mpr (.record blanks_nil (List.forall_mem_cons.mpr
      ⟨hlow, List.forall_mem_singleton.mpr hhigh⟩))

theorem areValues_scatteredParts : scatteredParts.AreValues where
  slot := isValue_digit (by decide)
  proposerIndex := isValue_bareText (by decide)
  parentRoot := isValue_bareText (by decide)
  stateRoot := isValue_bareText (by decide)
  body := isExact_scatteredParts.isValue
  signature := isValue_bareText (by decide)

section

open scoped Url.Idna

theorem block_is_passed_on_gathered :
    ∃ block, SignedBlock.codec.decode scatteredParts.text = .ok block ∧ posted block = gatheredParts.text ∧
      (∃ q : BlockParts, q.In (posted block) ∧ scatteredParts.PassedAs q) ∧
      SignedBlock.codec.decode (posted block) = .ok block := by
  have hrewrite : SignedBlock.codec.rewrite scatteredParts.text = .ok gatheredParts.text := by decide +kernel
  obtain ⟨block, hread, hblock⟩ := Codec.exists_of_rewrite hrewrite
  have hsound : ¬Torn SignedBlock.codec scatteredParts.text := fun h => absurd (mem_of_torn h) (by decide +kernel)
  have hbare : SignedBlock.codec.decode (Item.bare scatteredParts.text).text = .ok block :=
    (congrArg SignedBlock.codec.decode (Item.text_bare _)).trans hread
  obtain ⟨-, hpassed, -⟩ := block_is_passed_on areValues_scatteredParts.isValue_text hsound hbare
  obtain ⟨-, hparts, hagain⟩ := hpassed scatteredParts areValues_scatteredParts.in_text isExact_scatteredParts
  exact ⟨block, hread, (posted_eq_encode block).trans hblock, hparts, hagain⟩

end

/-! ### A block that is not passed on -/

/-- A root of zeros that goes on behind its bytes with a string for no text, and a root of ones with a line feed in it.
Behind the escape in the string, the inside of strings and the rest change places, up to the line feed. -/
def tornRoot : List Item :=
  digitItems (List.replicate 32 0x30) ++ [.bare (stringText (0x5c :: 0x75 :: 0x64 :: 0x63 :: 0x30 :: 0x30 ::
    Utf8.encode (']' :: ',' :: '[' :: (List.replicate 32 ['0', ',']).flatten)))]

def brokenRoot : List Item :=
  digitItems (List.replicate 31 0x31) ++ [⟨[], [0x31], [0x0a], blanks_nil, by decide⟩]

theorem isValue_of_mem_tornRoot {i : Item} (hi : i ∈ tornRoot) : IsValue i.value :=
  isValue_of_mem_digitItems_append (by decide) (isValue_halfPair (by decide)) hi

theorem isValue_of_mem_brokenRoot {i : Item} (hi : i ∈ brokenRoot) : IsValue i.value :=
  isValue_of_mem_digitItems_append (by decide) (isValue_digit (by decide)) hi

theorem spellsSized_brokenRoot : SpellsSized 32 (listText [] brokenRoot) (List.replicate 32 1) := by
  have hone : SpellsByte [0x31] 1 := ⟨.more (by decide) fun _ h => (nomatch h), rfl⟩
  refine .list blanks_nil (fun _ => isValue_of_mem_brokenRoot) rfl ?_
  simp [brokenRoot, digitItems, Item.bare, hone]

/-- The parts of a block with these roots. -/
def tornParts : BlockParts where
  slot := bareText ['1']
  proposerIndex := bareText ['2']
  parentRoot := listText [] tornRoot
  stateRoot := listText [] brokenRoot
  body := recordText [] []
  signature := bareText ['0', 'x']

def tornMessage : List UInt8 := listText [] ((tornParts.inside.map Prod.snd).map .bare)

/-- The block with these parts in lists. -/
def tornBlock : List UInt8 := listText [] ([tornMessage, tornParts.signature].map .bare)

/-- The parts that are posted for it. -/
def mendedParts : BlockParts where
  slot := bareText ['1']
  proposerIndex := bareText ['2']
  parentRoot := bareText (Hex.encode (List.replicate 32 0))
  stateRoot := bareText (Hex.encode (List.replicate 32 0))
  body := recordText [] []
  signature := bareText ['0', 'x']

theorem isExact_tornParts : IsExact tornParts.body := .record blanks_nil fun _ h => nomatch h

theorem areValues_tornParts : tornParts.AreValues where
  slot := isValue_bareText (by decide)
  proposerIndex := isValue_bareText (by decide)
  parentRoot := .list blanks_nil fun _ => isValue_of_mem_tornRoot
  stateRoot := .list blanks_nil fun _ => isValue_of_mem_brokenRoot
  body := isExact_tornParts.isValue
  signature := isValue_bareText (by decide)

theorem areValues_mendedParts : mendedParts.AreValues where
  slot := isValue_bareText (by decide)
  proposerIndex := isValue_bareText (by decide)
  parentRoot := isValue_hex _
  stateRoot := isValue_hex _
  body := isExact_tornParts.isValue
  signature := isValue_bareText (by decide)

theorem in_tornBlock : IsValue tornBlock ∧ tornParts.In tornBlock := by
  have hinside : ∀ v ∈ tornParts.inside.map Prod.snd, IsValue v := List.forall_mem_map.mpr areValues_tornParts.inside
  have hmessage : IsValue tornMessage := .list blanks_nil (List.forall_mem_map.mpr hinside)
  have houtside : ∀ v ∈ [tornMessage, tornParts.signature], IsValue v :=
    List.forall_mem_cons.mpr ⟨hmessage, List.forall_mem_singleton.mpr areValues_tornParts.signature⟩
  exact ⟨.list blanks_nil (List.forall_mem_map.mpr houtside), tornMessage, {
    isMessage := isPart_bare houtside rfl
    slot := isPart_bare hinside rfl
    proposerIndex := isPart_bare hinside rfl
    parentRoot := isPart_bare hinside rfl
    stateRoot := isPart_bare hinside rfl
    body := isPart_bare hinside rfl
    signature := isPart_bare houtside rfl }⟩

/-- What is posted for the block is read with a state root of zeros. -/
theorem stateRoot_of_mendedParts {q : BlockParts} (hq : q.In mendedParts.text) :
    TakesItem ((fixed 32).read 125) q.stateRoot (.replicate 32 0) := by
  have hroot : (SignedBlock.codec.decode mendedParts.text).map (·.message.stateRoot) = .ok (.replicate 32 0) := by
    decide +kernel
  have hsound : ¬Torn SignedBlock.codec mendedParts.text := fun h => absurd (mem_of_torn h) (by decide +kernel)
  cases hread : SignedBlock.codec.decode mendedParts.text with
  | error fault =>
      rw [hread] at hroot
      cases hroot
  | ok block =>
      rw [hread] at hroot
      have hbare : SignedBlock.codec.decode (Item.bare mendedParts.text).text = .ok block :=
        (congrArg SignedBlock.codec.decode (Item.text_bare _)).trans hread
      have htakes := takesItem_of_decode areValues_mendedParts.isValue_text hsound hbare
      rw [← Except.ok.inj hroot]
      exact (hq.takenAs hsound htakes).stateRoot

/-- The text of the block has a state root of ones, and the text that is posted for it has one of zeros. -/
theorem torn_block_is_posted_otherwise :
    ∃ block, IsValue tornBlock ∧ SignedBlock.codec.decode tornBlock = .ok block ∧ tornParts.In tornBlock ∧
      IsExact tornParts.body ∧ ¬∃ q : BlockParts, q.In (posted block) ∧ tornParts.PassedAs q := by
  have hrewrite : SignedBlock.codec.rewrite tornBlock = .ok mendedParts.text := by decide +kernel
  obtain ⟨block, hread, hblock⟩ := Codec.exists_of_rewrite hrewrite
  refine ⟨block, in_tornBlock.1, hread, in_tornBlock.2, isExact_tornParts, ?_⟩
  rintro ⟨q, hq, hpassed⟩
  rw [posted_eq_encode, hblock] at hq
  obtain ⟨root, hroot, hwritten⟩ := hpassed.stateRoot
  obtain rfl := (hroot _).mp spellsSized_brokenRoot
  -- the root that is posted is spelled with ones, and it is read as zeros
  have hzeros := stateRoot_of_mendedParts hq
  rw [hwritten] at hzeros
  have hones : SpellsSized 32 (bareText (Hex.encode (List.replicate 32 1))) (List.replicate 32 1) := by
    refine .hex (spells_encode fun _ hc => isEscaped_of_mem_encode hc) ?_ rfl
    have hdecode := Hex.decode_eq_ok_iff.mp (Hex.decode_encode (List.replicate 32 1))
    rwa [String.toList_ofList] at hdecode
  exact absurd ((spellsSized_iff (isValue_hex _) hzeros).mp hones) (by decide)

end

end ChainHead
