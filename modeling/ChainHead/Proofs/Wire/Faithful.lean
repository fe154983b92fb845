import ChainHead.Proofs.Wire.Answers
import ChainHead.Proofs.Wire.Values

/-! The records of the interface and their encodings. Decoding undoes encoding for all values of all records, alone, in
lists, in envelopes and in lists in envelopes. A signed block keeps its body as it was read; decoding undoes encoding
for the signed blocks that were read themselves, if there is no real number in the body. -/

namespace ChainHead

namespace Wire

open Json

variable {α : Type}

/-- The bytes that are sent for a value. -/
def Codec.encode (c : Codec α) (a : α) : List UInt8 := Utf8.encode (c.write a)

/-- A text, written anew from the value it is taken as. -/
def Codec.rewrite (c : Codec α) (bytes : List UInt8) : Except Failure (List UInt8) := (c.decode bytes).map c.encode

theorem Codec.exists_of_rewrite {c : Codec α} {bytes anew : List UInt8} (h : c.rewrite bytes = .ok anew) :
    ∃ a, c.decode bytes = .ok a ∧ c.encode a = anew := by
  rw [Codec.rewrite] at h
  cases hread : c.decode bytes with
  | error fault =>
      rw [hread] at h
      cases h
  | ok a =>
      rw [hread] at h
      exact ⟨a, rfl, Except.ok.inj h⟩

/-- Decoding undoes encoding for some values of a codec. Each of them has an encoding of its own, and a text that is
taken as one of them and written anew stays the same when it is written anew once more. -/
structure Codec.FaithfulOn (c : Codec α) (P : α → Prop) : Prop where
  decode_encode : ∀ a, P a → c.decode (c.encode a) = .ok a
  encode_inj : ∀ a b, P a → P b → c.encode a = c.encode b → a = b
  rewrite_rewrite : ∀ bytes a, P a → c.decode bytes = .ok a → (c.rewrite bytes).bind c.rewrite = c.rewrite bytes

theorem faithfulOn_of_decode_encode {c : Codec α} {P : α → Prop} (h : ∀ a, P a → c.decode (c.encode a) = .ok a) :
    c.FaithfulOn P where
  decode_encode := h
  encode_inj a b ha hb heq := by
    have hdecode : Except.ok a = (.ok b : Except Failure α) := by rw [← h a ha, heq, h b hb]
    cases hdecode
    rfl
  rewrite_rewrite bytes a ha hread := by
    have honce : c.rewrite bytes = .ok (c.encode a) := by rw [Codec.rewrite, hread, Except.map]
    calc (c.rewrite bytes).bind c.rewrite = c.rewrite (c.encode a) := by rw [honce, Except.bind]
      _ = .ok (c.encode a) := by rw [Codec.rewrite, h a ha, Except.map]
      _ = c.rewrite bytes := honce.symm

/-- Decoding undoes encoding for all values of a codec. -/
def Codec.Faithful (c : Codec α) : Prop := c.FaithfulOn fun _ => True

theorem Codec.Restores.faithful {c : Codec α} {depth : Nat} (h : c.Restores depth) (hdepth : depth ≤ Reader.levels) :
    c.Faithful :=
  faithfulOn_of_decode_encode fun a _ => (h.readsBack a).decode hdepth

theorem enveloped_restores {c : Codec α} {depth : Nat} (h : c.Restores depth) : (enveloped c).Restores (depth + 1) :=
  record_restores (List.nodup_singleton _) ⟨h, trivial⟩ fun _ => rfl

/-- A codec is faithful in all the forms that its values come in. -/
structure Codec.FaithfulWrapped (c : Codec α) : Prop where
  alone : c.Faithful
  listed : (list c).Faithful
  enveloped : (enveloped c).Faithful
  listEnveloped : (ChainHead.enveloped (list c)).Faithful

theorem Codec.Restores.faithfulWrapped {c : Codec α} {depth : Nat} (h : c.Restores depth)
    (hdepth : depth + 2 ≤ Reader.levels) : c.FaithfulWrapped where
  alone := h.faithful (by omega)
  listed := (list_restores h).faithful (by omega)
  enveloped := (enveloped_restores h).faithful (by omega)
  listEnveloped := (enveloped_restores (list_restores h)).faithful hdepth

end Wire

open Wire

/-! ### Each record -/

theorem PublicKey.restores (depth : Nat) : PublicKey.codec.Restores depth := viaText_restores of_text depth

theorem HeadEvent.restores : codec.Restores 1 :=
  record_restores (by decide) ⟨quoted_restores 0, text_restores 0, text_restores 0, trivial⟩ fun _ => rfl

theorem SyncStatus.restores : codec.Restores 1 := by
  have hflag (b : Bool) : (Utf8.encode (flag.write b)).head? ≠ some 0x6e := by cases b <;> decide
  exact record_restores (by decide)
    ⟨quoted_restores 0, flag_restores 0, optional_restores (flag_restores 0) hflag, trivial⟩ fun _ => rfl

theorem ValidatorEntry.restores : codec.Restores 2 := by
  have hkey : keyCodec.Restores 1 := record_restores (by decide) ⟨PublicKey.restores 0, trivial⟩ fun _ => rfl
  exact record_restores (by decide) ⟨quoted_restores 1, text_restores 1, text_restores 1, hkey, trivial⟩ fun _ => rfl

theorem ProposerDuty.restores : codec.Restores 1 :=
  record_restores (by decide) ⟨PublicKey.restores 0, quoted_restores 0, trivial⟩ fun _ => rfl

theorem BlockHeader.restores : codec.Restores 1 :=
  record_restores (by decide)
    ⟨quoted_restores 0, quoted_restores 0, fixed_restores 32 0, fixed_restores 32 0, fixed_restores 32 0, trivial⟩
    fun _ => rfl

theorem HeaderInfo.restores : codec.Restores 3 := by
  have hsigned : signedCodec.Restores 2 := record_restores (by decide) ⟨BlockHeader.restores, trivial⟩ fun _ => rfl
  exact record_restores (by decide) ⟨fixed_restores 32 2, hsigned, trivial⟩ fun _ => rfl

theorem Withdrawal.restores : codec.Restores 1 :=
  record_restores (by decide)
    ⟨quoted_restores 0, quoted_restores 0, fixed_restores 20 0, quoted_restores 0, trivial⟩ fun _ => rfl

theorem ExecutionPayload.restores : codec.Restores 3 := by
  have hwithdrawals : (optional (list Withdrawal.codec)).Restores 2 :=
    optional_restores (list_restores Withdrawal.restores) fun _ h => nomatch h
  exact record_restores (by decide)
    ⟨fixed_restores 32 2, fixed_restores 20 2, fixed_restores 32 2, fixed_restores 32 2, fixed_restores 256 2,
      fixed_restores 32 2, quoted_restores 2, quoted_restores 2, quoted_restores 2, quoted_restores 2, blob_restores 2,
      text_restores 2, fixed_restores 32 2, list_restores (blob_restores 1), hwithdrawals, trivial⟩ fun _ => rfl

theorem Block.restores : codec.Restores 6 := by
  have hpayload : (optional ExecutionPayload.codec).Restores 3 :=
    optional_restores ExecutionPayload.restores fun _ h => nomatch h
  have hbody : bodyCodec.Restores 4 := record_restores (by decide) ⟨hpayload, trivial⟩ fun _ => rfl
  have hmessage : messageCodec.Restores 5 :=
    record_restores (by decide) ⟨quoted_restores 4, hbody, trivial⟩ fun _ => rfl
  exact record_restores (by decide) ⟨hmessage, trivial⟩ fun _ => rfl

theorem Genesis.restores : codec.Restores 1 :=
  record_restores (by decide) ⟨quoted_restores 0, fixed_restores 32 0, fixed_restores 4 0, trivial⟩ fun _ => rfl

theorem ChainSpec.restores : codec.Restores 1 := by
  have htext : (optional text).Restores 0 := optional_restores (text_restores 0) fun t h => by
    rw [text, encode_writeText] at h
    cases h
  have haddress : (optional (fixed 20)).Restores 0 := optional_restores (fixed_restores 20 0) fun _ h => nomatch h
  exact record_restores (by decide)
    ⟨quoted_restores 0, quoted_restores 0, haddress, htext, htext, htext, htext, trivial⟩ fun _ => rfl

theorem Fork.restores : codec.Restores 1 :=
  record_restores (by decide) ⟨fixed_restores 4 0, fixed_restores 4 0, quoted_restores 0, trivial⟩ fun _ => rfl

theorem RandaoInfo.restores : codec.Restores 1 :=
  record_restores (by decide) ⟨fixed_restores 32 0, trivial⟩ fun _ => rfl

theorem WithdrawalsInfo.restores : codec.Restores 3 :=
  record_restores (by decide) ⟨list_restores Withdrawal.restores, trivial⟩ fun _ => rfl

/-! ### Signed blocks -/

/-- A signed block that was read from some text and has no real number in its body. -/
def SignedBlock.IsReadWhole (block : SignedBlock) : Prop :=
  (∃ bytes, codec.decode bytes = .ok block) ∧ IsWhole block.message.body

theorem SignedBlock.tidy_of_decode {bytes : List UInt8} {block : SignedBlock} (h : codec.decode bytes = .ok block) :
    block.message.body.Tidy 125 := by
  have hblock : codec.Gives (126 + 1) block := Codec.gives_of_decode h
  obtain ⟨⟨message, signature, _⟩, ⟨hmessage, -⟩, rfl⟩ := given_of_gives hblock
  obtain hmessage | habsent | habsent := hmessage
  · obtain ⟨⟨_, _, _, _, body, _⟩, ⟨-, -, -, -, hbody, -⟩, rfl⟩ := given_of_gives hmessage
    obtain ⟨before, behind, hbody⟩ | habsent | habsent := hbody
    · exact Json.Reader.yields_value 125 before body behind hbody
    · cases habsent
    · cases habsent
  · cases habsent
  · cases habsent

theorem SignedBlock.readsBack {block : SignedBlock} (h : block.message.body.Tidy 125)
    (hwhole : IsWhole block.message.body) : codec.ReadsBack 127 block := by
  have hmessage : ProposedBlock.codec.ReadsBack 126 block.message :=
    record_readsBack (by decide)
      ⟨(quoted_restores 125).readsBack _, (quoted_restores 125).readsBack _, (fixed_restores 32 125).readsBack _,
        (fixed_restores 32 125).readsBack _, anything_readsBack h hwhole, trivial⟩ rfl
  exact record_readsBack (by decide) ⟨hmessage, (blob_restores 126).readsBack _, trivial⟩ rfl

theorem SignedBlock.faithfulOn_isReadWhole : codec.FaithfulOn IsReadWhole := by
  refine faithfulOn_of_decode_encode fun block hblock => ?_
  obtain ⟨⟨bytes, hread⟩, hwhole⟩ := hblock
  exact (readsBack (tidy_of_decode hread) hwhole).decode (by decide)

/-! ### All records -/

/-- Decoding undoes encoding, for every record in every form that it comes in, and for signed blocks that were read. -/
theorem decoding_undoes_encoding :
    (HeadEvent.codec.FaithfulWrapped ∧ SyncStatus.codec.FaithfulWrapped ∧ ValidatorEntry.codec.FaithfulWrapped ∧
      ProposerDuty.codec.FaithfulWrapped ∧ HeaderInfo.codec.FaithfulWrapped ∧ Block.codec.FaithfulWrapped ∧
      Genesis.codec.FaithfulWrapped ∧ ChainSpec.codec.FaithfulWrapped ∧ Fork.codec.FaithfulWrapped ∧
      RandaoInfo.codec.FaithfulWrapped ∧ WithdrawalsInfo.codec.FaithfulWrapped ∧ Withdrawal.codec.FaithfulWrapped) ∧
    SignedBlock.codec.FaithfulOn SignedBlock.IsReadWhole :=
  ⟨⟨HeadEvent.restores.faithfulWrapped (by decide), SyncStatus.restores.faithfulWrapped (by decide),
    ValidatorEntry.restores.faithfulWrapped (by decide), ProposerDuty.restores.faithfulWrapped (by decide),
    HeaderInfo.restores.faithfulWrapped (by decide), Block.restores.faithfulWrapped (by decide),
    Genesis.restores.faithfulWrapped (by decide), ChainSpec.restores.faithfulWrapped (by decide),
    Fork.restores.faithfulWrapped (by decide), RandaoInfo.restores.faithfulWrapped (by decide),
    WithdrawalsInfo.restores.faithfulWrapped (by decide), Withdrawal.restores.faithfulWrapped (by decide)⟩,
    SignedBlock.faithfulOn_isReadWhole⟩

/-- A signed block whose body has members, a list and a negative number in it. -/
def SignedBlock.sample : SignedBlock where
  message :=
    { slot := 7
      proposerIndex := 3
      parentRoot := .replicate 32 0
      stateRoot := .replicate 32 0xaa
      body := .record [("graffiti", .text "\"A\""), ("votes", .list [.number (.negative 0), .null])] }
  signature := [1, 2]

theorem SignedBlock.isReadWhole_sample : sample.IsReadWhole := by
  have htidy : sample.message.body.Tidy 125 := by
    refine .record (by unfold Json.Ordered; decide) ?_
    simp only [List.forall_mem_cons]
    refine ⟨.text 124 _, .list ?_, fun _ h => nomatch h⟩
    simp only [List.forall_mem_cons]
    exact ⟨.number 123 (show 0 < 0x8000000000000000 by decide), .null 123, fun _ h => nomatch h⟩
  have hwhole : IsWhole sample.message.body := by
    refine .record ?_
    simp only [List.forall_mem_cons]
    refine ⟨.text _, .list ?_, fun _ h => nomatch h⟩
    simp only [List.forall_mem_cons]
    exact ⟨.negative 0, .null, fun _ h => nomatch h⟩
  exact ⟨⟨_, (readsBack htidy hwhole).decode (by decide)⟩, hwhole⟩

theorem decoding_undoes_encoding_sample :
    SignedBlock.sample.IsReadWhole ∧
      SignedBlock.codec.decode (SignedBlock.codec.encode .sample) = .ok .sample :=
  ⟨SignedBlock.isReadWhole_sample,
    decoding_undoes_encoding.2.decode_encode SignedBlock.sample SignedBlock.isReadWhole_sample⟩

end ChainHead
