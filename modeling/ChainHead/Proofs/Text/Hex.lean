import ChainHead.Text.Hex

/-! Bytes that are written in hexadecimal are read back, with their size or without. -/

namespace ChainHead.Hex

/-- The ASCII byte of a hexadecimal digit. -/
def digitByte (n : Nat) : UInt8 := (Nat.digitChar n).toNat.toUInt8

theorem encodeChar_digitChar : ∀ n < 16, String.utf8EncodeChar (Nat.digitChar n) = [digitByte n] := by decide

theorem digit?_digitByte : ∀ n < 16, digit? (digitByte n) = some (UInt8.ofNat n) := by decide

theorem encode_digits (b : UInt8) :
    Utf8.encode (digits b) = [digitByte (b.toNat / 16), digitByte (b.toNat % 16)] := by
  have hb := b.toNat_lt
  rw [digits, Utf8.encode_cons, Utf8.encode_cons, Utf8.encode_nil, encodeChar_digitChar _ (by omega),
    encodeChar_digitChar _ (by omega)]
  rfl

/-- A byte is its high half times sixteen and its low half. -/
theorem halves (b : UInt8) : UInt8.ofNat (b.toNat / 16) * 16 + UInt8.ofNat (b.toNat % 16) = b := by
  have hb := b.toNat_lt
  have hhigh : (UInt8.ofNat (b.toNat / 16)).toNat = b.toNat / 16 := UInt8.toNat_ofNat_of_lt' (show _ < 256 by omega)
  have hlow : (UInt8.ofNat (b.toNat % 16)).toNat = b.toNat % 16 := UInt8.toNat_ofNat_of_lt' (show _ < 256 by omega)
  rw [← UInt8.toNat_inj, UInt8.toNat_add, UInt8.toNat_mul, hhigh, hlow]
  simp only [UInt8.reduceToNat]
  omega

theorem length_encode_flatMap_digits (bytes : List UInt8) :
    (Utf8.encode (bytes.flatMap digits)).length = 2 * bytes.length := by
  induction bytes with
  | nil => rfl
  | cons b rest ih =>
      rw [List.flatMap_cons, Utf8.encode_append, encode_digits, List.length_append, ih, List.length_cons]
      simp only [List.length_cons, List.length_nil]
      omega

theorem pairs_digits (bytes : List UInt8) (index : Nat) :
    pairs index (Utf8.encode (bytes.flatMap digits)) = .ok bytes := by
  induction bytes generalizing index with
  | nil => rfl
  | cons b rest ih =>
      have hb := b.toNat_lt
      rw [List.flatMap_cons, Utf8.encode_append, encode_digits, List.cons_append, List.singleton_append, pairs,
        digit?_digitByte _ (by omega), digit?_digitByte _ (by omega)]
      simp only [ih, halves]
      rfl

theorem encode_encode (bytes : List UInt8) :
    Utf8.encode (encode bytes) = 0x30 :: 0x78 :: Utf8.encode (bytes.flatMap digits) := by
  rw [encode, Utf8.encode_cons, Utf8.encode_cons]
  rfl

theorem even_length_encode (bytes : List UInt8) : (Utf8.encode (encode bytes)).length % 2 = 0 := by
  rw [encode_encode, List.length_cons, List.length_cons, length_encode_flatMap_digits]
  omega

theorem decode_encode (bytes : List UInt8) : decode (String.ofList (encode bytes)) = .ok bytes := by
  rw [decode, String.toList_ofList]
  rw [if_neg (by simp [even_length_encode]), encode_encode]
  exact pairs_digits bytes 0

theorem decodeSized_encode (bytes : List UInt8) :
    decodeSized bytes.length (String.ofList (encode bytes)) = .ok bytes := by
  have hlength : (unmark (Utf8.encode (encode bytes))).length = 2 * bytes.length := by
    rw [encode_encode]
    exact length_encode_flatMap_digits bytes
  rw [decodeSized, String.toList_ofList]
  rw [if_neg (by simp [even_length_encode]), if_neg (by simp [hlength]), encode_encode]
  exact pairs_digits bytes 0

/-- What holds of the digits and of the mark holds of all that is written. -/
theorem forall_mem_encode {p : Char → Bool} (hmark : p 'x' = true) (hdigit : ∀ n < 16, p (Nat.digitChar n) = true)
    (bytes : List UInt8) : ∀ c ∈ encode bytes, p c = true := by
  intro c h
  rw [encode, List.mem_cons, List.mem_cons, List.mem_flatMap] at h
  rcases h with rfl | rfl | ⟨b, -, hc⟩
  · exact hdigit 0 (by omega)
  · exact hmark
  · have hb := b.toNat_lt
    rw [digits, List.mem_cons, List.mem_singleton] at hc
    rcases hc with rfl | rfl
    · exact hdigit _ (by omega)
    · exact hdigit _ (by omega)

end ChainHead.Hex
