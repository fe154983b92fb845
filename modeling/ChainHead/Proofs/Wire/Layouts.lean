import ChainHead.Proofs.Wire.Decoding

/-! The records of the interface, each with its fields. They are read from objects by their members alone: by what is
given for each field, in any order, among any other members. -/

namespace ChainHead

open Json Reader Wire

/-- How a codec reads and writes a record. -/
structure Wire.Layout {α : Type} (c : Codec α) where
  {τ : Type}
  name : String
  fields : Fields τ
  make : τ → α
  parts : α → τ
  codec_eq : c = record name fields make parts

def Wire.Layout.enveloped {α : Type} (c : Codec α) : Layout (enveloped c) := ⟨_, _, _, _, rfl⟩

def HeadEvent.layout : Layout HeadEvent.codec := ⟨_, _, _, _, rfl⟩

def SyncStatus.layout : Layout SyncStatus.codec := ⟨_, _, _, _, rfl⟩

def ValidatorEntry.keyLayout : Layout ValidatorEntry.keyCodec := ⟨_, _, _, _, rfl⟩

def ValidatorEntry.layout : Layout ValidatorEntry.codec := ⟨_, _, _, _, rfl⟩

def ProposerDuty.layout : Layout ProposerDuty.codec := ⟨_, _, _, _, rfl⟩

def BlockHeader.layout : Layout BlockHeader.codec := ⟨_, _, _, _, rfl⟩

def HeaderInfo.signedLayout : Layout HeaderInfo.signedCodec := ⟨_, _, _, _, rfl⟩

def HeaderInfo.layout : Layout HeaderInfo.codec := ⟨_, _, _, _, rfl⟩

def Withdrawal.layout : Layout Withdrawal.codec := ⟨_, _, _, _, rfl⟩

def ExecutionPayload.layout : Layout ExecutionPayload.codec := ⟨_, _, _, _, rfl⟩

def Block.bodyLayout : Layout Block.bodyCodec := ⟨_, _, _, _, rfl⟩

def Block.messageLayout : Layout Block.messageCodec := ⟨_, _, _, _, rfl⟩

def Block.layout : Layout Block.codec := ⟨_, _, _, _, rfl⟩

def ProposedBlock.layout : Layout ProposedBlock.codec := ⟨_, _, _, _, rfl⟩

def SignedBlock.layout : Layout SignedBlock.codec := ⟨_, _, _, _, rfl⟩

def Genesis.layout : Layout Genesis.codec := ⟨_, _, _, _, rfl⟩

def ChainSpec.layout : Layout ChainSpec.codec := ⟨_, _, _, _, rfl⟩

def Fork.layout : Layout Fork.codec := ⟨_, _, _, _, rfl⟩

def RandaoInfo.layout : Layout RandaoInfo.codec := ⟨_, _, _, _, rfl⟩

def WithdrawalsInfo.layout : Layout WithdrawalsInfo.codec := ⟨_, _, _, _, rfl⟩

namespace Wire

/-- The records of the interface, alone and in envelopes, one by one or in lists. -/
inductive IsWire : {α : Type} → {c : Codec α} → Layout c → Prop
  | headEvent : IsWire HeadEvent.layout
  | syncStatus : IsWire SyncStatus.layout
  | validatorKey : IsWire ValidatorEntry.keyLayout
  | validatorEntry : IsWire ValidatorEntry.layout
  | proposerDuty : IsWire ProposerDuty.layout
  | blockHeader : IsWire BlockHeader.layout
  | signedHeader : IsWire HeaderInfo.signedLayout
  | headerInfo : IsWire HeaderInfo.layout
  | withdrawal : IsWire Withdrawal.layout
  | executionPayload : IsWire ExecutionPayload.layout
  | blockBody : IsWire Block.bodyLayout
  | blockMessage : IsWire Block.messageLayout
  | block : IsWire Block.layout
  | proposedBlock : IsWire ProposedBlock.layout
  | signedBlock : IsWire SignedBlock.layout
  | genesis : IsWire Genesis.layout
  | chainSpec : IsWire ChainSpec.layout
  | fork : IsWire Fork.layout
  | randaoInfo : IsWire RandaoInfo.layout
  | withdrawalsInfo : IsWire WithdrawalsInfo.layout
  | enveloped {α : Type} {c : Codec α} {l : Layout c} (h : IsWire l) : IsWire (Layout.enveloped c)
  | envelopedList {α : Type} {c : Codec α} {l : Layout c} (h : IsWire l) : IsWire (Layout.enveloped (list c))

/-- The fields of a record have different names and codecs that settle, and none has a default of its own. -/
structure Layout.WellFormed {α : Type} {c : Codec α} (l : Layout c) : Prop where
  nodup_names : l.fields.names.Nodup
  settle_fields : l.fields.Settle
  plain_fields : l.fields.Plain

theorem Layout.WellFormed.settles {α : Type} {c : Codec α} {l : Layout c} (h : l.WellFormed) : c.Settles := by
  rw [l.codec_eq]
  exact record_settles h.nodup_names h.settle_fields

theorem wellFormed_enveloped {α : Type} {c : Codec α} (h : c.Settles) : (Layout.enveloped c).WellFormed :=
  ⟨List.nodup_singleton _, ⟨h, trivial⟩, .required .nil⟩

end Wire

/-! ### The fields of each record -/

theorem PublicKey.settles : codec.Settles := viaText_settles _ _

theorem HeadEvent.wellFormed : layout.WellFormed :=
  ⟨by decide, ⟨quoted_settles, text_settles, text_settles, trivial⟩, .required <| .required <| .required .nil⟩

theorem SyncStatus.wellFormed : layout.WellFormed :=
  ⟨by decide, ⟨quoted_settles, flag_settles, optional_settles flag_settles, trivial⟩,
    .required <| .required <| .missable rfl .nil⟩

theorem ValidatorEntry.wellFormed_key : keyLayout.WellFormed :=
  ⟨by decide, ⟨PublicKey.settles, trivial⟩, .required .nil⟩

theorem ValidatorEntry.wellFormed : layout.WellFormed :=
  ⟨by decide, ⟨quoted_settles, text_settles, text_settles, wellFormed_key.settles, trivial⟩,
    .required <| .required <| .required <| .required .nil⟩

theorem ProposerDuty.wellFormed : layout.WellFormed :=
  ⟨by decide, ⟨PublicKey.settles, quoted_settles, trivial⟩, .required <| .required .nil⟩

theorem BlockHeader.wellFormed : layout.WellFormed :=
  ⟨by decide, ⟨quoted_settles, quoted_settles, fixed_settles 32, fixed_settles 32, fixed_settles 32, trivial⟩,
    .required <| .required <| .required <| .required <| .required .nil⟩

theorem HeaderInfo.wellFormed_signed : signedLayout.WellFormed :=
  ⟨by decide, ⟨BlockHeader.wellFormed.settles, trivial⟩, .required .nil⟩

theorem HeaderInfo.wellFormed : layout.WellFormed :=
  ⟨by decide, ⟨fixed_settles 32, wellFormed_signed.settles, trivial⟩, .required <| .required .nil⟩

theorem Withdrawal.wellFormed : layout.WellFormed :=
  ⟨by decide, ⟨quoted_settles, quoted_settles, fixed_settles 20, quoted_settles, trivial⟩,
    .required <| .required <| .required <| .required .nil⟩

theorem ExecutionPayload.wellFormed : layout.WellFormed :=
  ⟨by decide, ⟨fixed_settles 32, fixed_settles 20, fixed_settles 32, fixed_settles 32, fixed_settles 256,
      fixed_settles 32, quoted_settles, quoted_settles, quoted_settles, quoted_settles, blob_settles, text_settles,
      fixed_settles 32, list_settles blob_settles, optional_settles (list_settles Withdrawal.wellFormed.settles),
      trivial⟩,
    .required <| .required <| .required <| .required <| .required <| .required <| .required <| .required <|
      .required <| .required <| .required <| .required <| .required <| .required <| .missable rfl .nil⟩

theorem Block.wellFormed_body : bodyLayout.WellFormed :=
  ⟨by decide, ⟨optional_settles ExecutionPayload.wellFormed.settles, trivial⟩, .missable rfl .nil⟩

theorem Block.wellFormed_message : messageLayout.WellFormed :=
  ⟨by decide, ⟨quoted_settles, wellFormed_body.settles, trivial⟩, .required <| .required .nil⟩

theorem Block.wellFormed : layout.WellFormed := ⟨by decide, ⟨wellFormed_message.settles, trivial⟩, .required .nil⟩

theorem ProposedBlock.wellFormed : layout.WellFormed :=
  ⟨by decide, ⟨quoted_settles, quoted_settles, fixed_settles 32, fixed_settles 32, anything_settles, trivial⟩,
    .required <| .required <| .required <| .required <| .required .nil⟩

theorem SignedBlock.wellFormed : layout.WellFormed :=
  ⟨by decide, ⟨ProposedBlock.wellFormed.settles, blob_settles, trivial⟩, .required <| .required .nil⟩

theorem Genesis.wellFormed : layout.WellFormed :=
  ⟨by decide, ⟨quoted_settles, fixed_settles 32, fixed_settles 4, trivial⟩, .required <| .required <| .required .nil⟩

theorem ChainSpec.wellFormed : layout.WellFormed :=
  ⟨by decide, ⟨quoted_settles, quoted_settles, optional_settles (fixed_settles 20), optional_settles text_settles,
      optional_settles text_settles, optional_settles text_settles, optional_settles text_settles, trivial⟩,
    .required <| .required <| .missable rfl <| .missable rfl <| .missable rfl <| .missable rfl <| .missable rfl .nil⟩

theorem Fork.wellFormed : layout.WellFormed :=
  ⟨by decide, ⟨fixed_settles 4, fixed_settles 4, quoted_settles, trivial⟩, .required <| .required <| .required .nil⟩

theorem RandaoInfo.wellFormed : layout.WellFormed := ⟨by decide, ⟨fixed_settles 32, trivial⟩, .required .nil⟩

theorem WithdrawalsInfo.wellFormed : layout.WellFormed :=
  ⟨by decide, ⟨list_settles Withdrawal.wellFormed.settles, trivial⟩, .required .nil⟩

namespace Wire

variable {α : Type} {c : Codec α} {l : Layout c}

theorem IsWire.wellFormed (h : IsWire l) : l.WellFormed := by
  induction h with
  | headEvent => exact HeadEvent.wellFormed
  | syncStatus => exact SyncStatus.wellFormed
  | validatorKey => exact ValidatorEntry.wellFormed_key
  | validatorEntry => exact ValidatorEntry.wellFormed
  | proposerDuty => exact ProposerDuty.wellFormed
  | blockHeader => exact BlockHeader.wellFormed
  | signedHeader => exact HeaderInfo.wellFormed_signed
  | headerInfo => exact HeaderInfo.wellFormed
  | withdrawal => exact Withdrawal.wellFormed
  | executionPayload => exact ExecutionPayload.wellFormed
  | blockBody => exact Block.wellFormed_body
  | blockMessage => exact Block.wellFormed_message
  | block => exact Block.wellFormed
  | proposedBlock => exact ProposedBlock.wellFormed
  | signedBlock => exact SignedBlock.wellFormed
  | genesis => exact Genesis.wellFormed
  | chainSpec => exact ChainSpec.wellFormed
  | fork => exact Fork.wellFormed
  | randaoInfo => exact RandaoInfo.wellFormed
  | withdrawalsInfo => exact WithdrawalsInfo.wellFormed
  | enveloped h ih => exact wellFormed_enveloped ih.settles
  | envelopedList h ih => exact wellFormed_enveloped (list_settles ih.settles)

/-! ### Reading by members -/

/-- A record is read from objects by its members. Where `decodes_iff` and `congr` speak of the members of an object,
each of them has to have a key that stands for a text. -/
structure Layout.ReadsByMembers (l : Layout c) : Prop where
  /-- A whole text is decoded with 127 levels. -/
  decode_eq : ∀ bytes, c.decode bytes = c.decodeAt (126 + 1) bytes
  /-- Decoding succeeds where the members give what the fields need, and the record is made of that. -/
  decodes_iff : ∀ (levels : Nat) (o : Object) (before behind : List UInt8), Blanks before → Blanks behind →
    ¬Torn c o.text → ∀ a, c.decodeAt (levels + 1) (o.within before behind) = .ok a ↔
      ∃ named values, Fields.Named o.members named ∧ l.fields.Provided levels named values ∧ l.make values = a
  no_levels : ∀ (o : Object) (before behind : List UInt8), Blanks before → Blanks behind →
    ∃ e, c.decodeAt 0 (o.within before behind) = .error e
  /-- The order of the members does not matter, nor do unknown ones. -/
  congr : ∀ (levels : Nat) (o o' : Object) (before behind before' behind' : List UInt8)
    (named named' : List (String × List UInt8)), Blanks before → Blanks behind → Blanks before' → Blanks behind' →
    ¬Torn c o.text → Fields.Named o.members named → Fields.Named o'.members named' →
    (l.fields.known named).Perm (l.fields.known named') →
    ∀ a, c.decodeAt (levels + 1) (o.within before behind) = .ok a ↔
      c.decodeAt (levels + 1) (o'.within before' behind') = .ok a
  repeated : ∀ (levels : Nat) (o : Object) (before behind : List UInt8) (key : String) (m m' : Member),
    Blanks before → Blanks behind → ¬Torn c o.text → key ∈ l.fields.names → [m, m'].Sublist o.members →
    Spells m.key key.toList → Spells m'.key key.toList →
    ∃ e, c.decodeAt (levels + 1) (o.within before behind) = .error e
  trailing : ∀ (levels : Nat) (o : Object) (before behind : List UInt8), Blanks before → ¬Blanks behind →
    ¬Torn c o.text → ∃ e, c.decodeAt (levels + 1) (o.within before behind) = .error e

theorem Layout.WellFormed.readsByMembers (h : l.WellFormed) : l.ReadsByMembers := by
  obtain ⟨name, fields, make, parts, rfl⟩ := l
  obtain ⟨hnames, hfields, hplain⟩ := h
  refine ⟨fun bytes => rfl, ?_, ?_, ?_, ?_, ?_⟩
  · intro levels o before behind hbefore hbehind hsound a
    rw [decodeAt_within_iff hnames hfields hsound hbefore hbehind]
    refine exists₂_congr fun named values => and_congr_right fun hnamed => and_congr_left fun _ => ?_
    exact (Fields.provided_iff_holds hplain o.isValue_members hnamed).symm
  · intro o before behind hbefore hbehind
    exact decodeAt_of_refusesItem (skipsBlanks_recordRead _) refuses_recordRead_zero.item hbefore hbehind
  · intro levels o o' before behind before' behind' named named' hbefore hbehind hbefore' hbehind' hsound hnamed hnamed'
      hperm a
    exact decodeAt_within_congr hnames hfields hsound hbefore hbehind hbefore' hbehind' hnamed hnamed' hperm a
  · intro levels o before behind key m m' hbefore hbehind hsound hkey hsub hm hm'
    exact decodeAt_within_repeated hnames hfields hsound hbefore hbehind hkey hsub hm hm'
  · intro levels o before behind hbefore hbehind hsound
    exact decodeAt_trailing (skipsBlanks_recordRead _)
      (takes_or_refuses_record hnames hfields o.isValue_members hsound o.blanks_gap _) hbefore hbehind

/-- Every record of the interface is read from objects by its members. -/
theorem reads_by_members (h : IsWire l) : l.ReadsByMembers := h.wellFormed.readsByMembers

end Wire

namespace HeadEvent

/-- The members of a head in another order, behind one with a slot of its own, and with an escape in a key. -/
def scattered : Object where
  gap := []
  members := [
    .bare "x" (recordText [] [.bare "slot" (bareText ['9']) (by decide)]) (by decide),
    .bare "state" (bareText ['s']) (by decide),
    ⟨[], [0x73, 0x6c, 0x5c, 0x75, 0x30, 0x30, 0x36, 0x66, 0x74], [], .bare (bareText ['7']), blanks_nil,
      .plain (by decide) (.plain (by decide) (.unit (by decide) (.plain (by decide) .nil))), blanks_nil⟩,
    .bare "block" (bareText ['b']) (by decide)]
  blanks_gap := blanks_nil
  isValue_members := by
    refine List.forall_mem_cons.mpr ⟨.record blanks_nil ?_, ?_⟩
    · exact List.forall_mem_singleton.mpr (isValue_bareText (by decide))
    · refine List.forall_mem_cons.mpr ⟨isValue_bareText (by decide), ?_⟩
      refine List.forall_mem_cons.mpr ⟨isValue_bareText (by decide), ?_⟩
      exact List.forall_mem_singleton.mpr (isValue_bareText (by decide))

def scatteredNames : List (String × List UInt8) :=
  [("x", recordText [] [.bare "slot" (bareText ['9']) (by decide)]), ("state", bareText ['s']),
    ("slot", bareText ['7']), ("block", bareText ['b'])]

theorem named_scattered : Fields.Named scattered.members scatteredNames := by
  have hescape : Reader.hexUnit? 0x30 0x30 0x36 0x66 = some 0x6f := by decide
  have hslot : Spells (Utf8.encode ['s', 'l'] ++ 0x5c :: 0x75 :: 0x30 :: 0x30 :: 0x36 :: 0x66 :: Utf8.encode ['t'])
      (['s', 'l'] ++ 'o' :: ['t']) :=
    .run_append (show Unescaped ['s', 'l'] by decide) (.unit hescape (by decide) (spells_encode (by decide)))
  exact .cons ⟨spells_encode (by decide), rfl⟩ <| .cons ⟨spells_encode (by decide), rfl⟩ <| .cons ⟨hslot, rfl⟩ <|
    .cons ⟨spells_encode (by decide), rfl⟩ .nil

theorem decode_scattered : codec.decode (scattered.within [0x20] [0x0a]) = .ok ⟨7, "b", "s"⟩ := by
  have hreads := reads_by_members IsWire.headEvent
  have hsound : ¬Torn codec scattered.text := fun h => absurd (mem_of_torn h) (by decide)
  rw [hreads.decode_eq, hreads.decodes_iff 126 scattered [0x20] [0x0a] (by decide) (by decide) hsound]
  have hprovided : layout.fields.Provided 126 scatteredNames (7, "b", "s", ()) := by
    refine .required (v := bareText ['7']) ?_ ?_ (.required (v := bareText ['b']) ?_ ?_
      (.required (v := bareText ['s']) ?_ ?_ .nil))
    all_goals decide +kernel
  exact ⟨scatteredNames, _, named_scattered, hprovided, rfl⟩

end HeadEvent

/-! ### What the members alone do not settle -/

/-- What an object decodes to is settled by its members, each value for a field being decoded like a whole text. -/
def Wire.Layout.SettledByMembers {α : Type} {c : Codec α} (l : Layout c) (o : Object) : Prop :=
  ∀ a, c.decode o.text = .ok a ↔
    ∃ named values, Fields.Named o.members named ∧ l.fields.Provided Reader.levels named values ∧ l.make values = a

/-- The given number of lists and one more, each in the one before it. -/
def Json.nestedLists : Nat → List UInt8
  | 0 => listText [] []
  | n + 1 => listText [] [.bare (nestedLists n)]

theorem Json.isValue_nestedLists (n : Nat) : IsValue (nestedLists n) := by
  induction n with
  | zero => exact .list blanks_nil fun _ h => nomatch h
  | succ n ih => exact .list blanks_nil (List.forall_mem_singleton.mpr ih)

theorem Json.isValue_digit {b : UInt8} (h : isDigit b = true) : IsValue [b] := by
  have hwhole : IsInteger [b] := by
    by_cases hb : b = 0x30
    · subst hb
      exact .zero
    · refine .more ?_ fun _ h => nomatch h
      have hne : b.toNat ≠ 0x30 := fun heq => hb (UInt8.toNat_inj.mp heq)
      simp only [isDigit, Bool.and_eq_true, decide_eq_true_eq, UInt8.le_iff_toNat_le, UInt8.reduceToNat] at h ⊢
      omega
  exact .number (.intro hwhole .none .none)

/-- Numbers of one digit each. -/
def Json.digitItems (digits : List UInt8) : List Item := digits.map fun b => .bare [b]

theorem Json.isValue_of_mem_digitItems {digits : List UInt8} (h : Digits digits) {i : Item}
    (hi : i ∈ digitItems digits) : IsValue i.value := by
  obtain ⟨b, hb, rfl⟩ := List.mem_map.mp hi
  exact isValue_digit (h b hb)

theorem Json.isValue_of_mem_digitItems_append {digits : List UInt8} (h : Digits digits) {last i : Item}
    (hlast : IsValue last.value) (hi : i ∈ digitItems digits ++ [last]) : IsValue i.value := by
  rcases List.mem_append.mp hi with hi | hi
  · exact isValue_of_mem_digitItems h hi
  · obtain rfl := List.mem_singleton.mp hi
    exact hlast

/-- A string with one half of a pair of units in it is a value, but stands for no text. -/
theorem Json.isValue_halfPair {t : List Char} (h : Unescaped t) :
    IsValue (stringText (0x5c :: 0x75 :: 0x64 :: 0x63 :: 0x30 :: 0x30 :: Utf8.encode t)) :=
  .text (.unit (by decide) (spells_encode h).isText)

namespace SignedBlock

/-- A block whose body is as deep as a text may be, when it stands by itself. -/
def deepMessage : Object where
  gap := []
  members := [
    .bare "slot" (bareText ['1']) (by decide),
    .bare "proposer_index" (bareText ['2']) (by decide),
    .bare "parent_root" (bareText ('0' :: 'x' :: List.replicate 64 '0')) (by decide),
    .bare "state_root" (bareText ('0' :: 'x' :: List.replicate 64 '0')) (by decide),
    .bare "body" (nestedLists 125) (by decide)]
  blanks_gap := blanks_nil
  isValue_members := by
    refine List.forall_mem_cons.mpr ⟨isValue_bareText (by decide), ?_⟩
    refine List.forall_mem_cons.mpr ⟨isValue_bareText (by decide), ?_⟩
    refine List.forall_mem_cons.mpr ⟨isValue_bareText (by decide), ?_⟩
    refine List.forall_mem_cons.mpr ⟨isValue_bareText (by decide), ?_⟩
    exact List.forall_mem_singleton.mpr (isValue_nestedLists 125)

def deep : Object where
  gap := []
  members := [.bare "message" deepMessage.text (by decide), .bare "signature" (bareText ['0', 'x']) (by decide)]
  blanks_gap := blanks_nil
  isValue_members := List.forall_mem_cons.mpr
    ⟨deepMessage.isValue_text, List.forall_mem_singleton.mpr (isValue_bareText (by decide))⟩

theorem exists_decodeAt_deepMessage : ∃ b, ProposedBlock.codec.decodeAt Reader.levels deepMessage.text = .ok b := by
  have hok : (ProposedBlock.codec.decodeAt Reader.levels deepMessage.text).isOk = true := by decide +kernel
  generalize ProposedBlock.codec.decodeAt Reader.levels deepMessage.text = result at hok
  cases result with
  | ok b => exact ⟨b, rfl⟩
  | error e => cases hok

def deepNames : List (String × List UInt8) := [("message", deepMessage.text), ("signature", bareText ['0', 'x'])]

theorem named_deep : Fields.Named deep.members deepNames :=
  .cons ⟨spells_encode (by decide), rfl⟩ <| .cons ⟨spells_encode (by decide), rfl⟩ .nil

theorem not_settled_deep : ¬layout.SettledByMembers deep := by
  intro h
  have hfails : (codec.decode deep.text).isOk = false := by decide +kernel
  obtain ⟨message, hmessage⟩ := exists_decodeAt_deepMessage
  have hfirst (v w : List UInt8) : Fields.valuesOf "message" [("message", v), ("signature", w)] = [v] := rfl
  have hsecond (v w : List UInt8) : Fields.valuesOf "signature" [("message", v), ("signature", w)] = [w] := rfl
  have hprovided : layout.fields.Provided Reader.levels deepNames (message, [], ()) :=
    .required (hfirst _ _) hmessage <| .required (hsecond _ _) (by decide) .nil
  rw [(h _).mpr ⟨deepNames, _, named_deep, hprovided, rfl⟩] at hfails
  cases hfails

end SignedBlock

namespace Fork

/-- A string that stands for no text. -/
def torn : List UInt8 := stringText (0x5c :: 0x75 :: 0x64 :: 0x63 :: 0x30 :: 0x30 :: Utf8.encode [']', ','])

/-- A fork whose current version goes on behind its last byte. -/
def overlong : Object where
  gap := []
  members := [
    .bare "epoch" [0x31] (by decide),
    .bare "previous_version" (listText [] (digitItems [0x30, 0x30, 0x30, 0x30])) (by decide),
    .bare "current_version" (listText [] (digitItems [0x31, 0x32, 0x33, 0x34] ++ [.bare torn])) (by decide)]
  blanks_gap := blanks_nil
  isValue_members := by
    refine List.forall_mem_cons.mpr ⟨isValue_digit (by decide), ?_⟩
    refine List.forall_mem_cons.mpr ⟨.list blanks_nil fun _ => isValue_of_mem_digitItems (by decide), ?_⟩
    refine List.forall_mem_singleton.mpr (.list blanks_nil fun _ => ?_)
    exact isValue_of_mem_digitItems_append (by decide) (isValue_halfPair (by decide))

/-- An envelope with that fork. Behind the torn string, the inside of the strings and the rest change places. -/
def envelope : Object where
  gap := []
  members := [
    .bare "data" (listText [] [.bare overlong.text]) (by decide),
    .bare ":0\x7d,[[1,2,3,4],[1,2,3,4," (listText [] [.bare (listText [] [.bare (listText [0x0a] []), .bare [0x33]])])
      (by decide)]
  blanks_gap := blanks_nil
  isValue_members := by
    refine List.forall_mem_cons.mpr ⟨.list blanks_nil (List.forall_mem_singleton.mpr overlong.isValue_text), ?_⟩
    refine List.forall_mem_singleton.mpr (.list blanks_nil (List.forall_mem_singleton.mpr (.list blanks_nil ?_)))
    refine List.forall_mem_cons.mpr ⟨.list (by decide) fun _ h => (nomatch h), ?_⟩
    exact List.forall_mem_singleton.mpr (isValue_digit (by decide))

theorem not_settled_envelope : ¬(Layout.enveloped (list codec)).SettledByMembers envelope := by
  intro h
  have hdecode : (enveloped (list codec)).decode envelope.text =
      .ok [⟨.replicate 4 0, #v[1, 2, 3, 4], 1⟩, ⟨#v[1, 2, 3, 4], #v[1, 2, 3, 4], 3⟩] := by decide +kernel
  have hfails : ((list codec).decodeAt Reader.levels (listText [] [.bare overlong.text])).isOk = false := by
    decide +kernel
  obtain ⟨named, ⟨forks, _⟩, hnamed, hprovided, -⟩ := (h _).mp hdecode
  have hplain : (Layout.enveloped (list codec)).fields.Plain := .required .nil
  obtain ⟨hdata, -⟩ := (Fields.provided_iff_holds hplain envelope.isValue_members hnamed).mp hprovided
  have hnames : Fields.Named envelope.members [("data", listText [] [.bare overlong.text]), (_, _)] :=
    .cons ⟨spells_encode (by decide), rfl⟩ <| .cons ⟨spells_encode (by decide), rfl⟩ .nil
  have hfirst (v w : List UInt8) :
      Fields.valuesOf "data" [("data", v), (":0\x7d,[[1,2,3,4],[1,2,3,4,", w)] = [v] := rfl
  rw [named_unique hnamed hnames, hfirst] at hdata
  rw [show (list codec).decodeAt Reader.levels _ = .ok forks from hdata] at hfails
  cases hfails

end Fork

/-- A body that is too deep inside of the block, and a string for no text behind the bytes of a version. -/
theorem not_settled_by_members :
    ¬SignedBlock.layout.SettledByMembers SignedBlock.deep ∧
      ¬(Layout.enveloped (list Fork.codec)).SettledByMembers Fork.envelope :=
  ⟨SignedBlock.not_settled_deep, Fork.not_settled_envelope⟩

end ChainHead
