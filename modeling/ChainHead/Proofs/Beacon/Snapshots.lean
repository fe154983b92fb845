import ChainHead.Proofs.Client.Failures
import ChainHead.Proofs.Wire.Faithful
import Mathlib.Data.List.Dedup
import Mathlib.Data.List.Induction

/-! Snapshots of the validator set. A snapshot is known by what it gives for each key: the last row with that key. So
its keys are those of the rows, rows that are put in later take the place of earlier ones, and the order of rows matters
only among rows of one key. -/

namespace ChainHead

open Wire

namespace Snapshot

/-- The last row with a key. -/
def lastRow? (rows : List ValidatorEntry) (key : PublicKey) : Option ValidatorEntry :=
  (rows.filter (·.key = key)).getLast?

/-- No two rows have the same key. -/
def Distinct (rows : List ValidatorEntry) : Prop := rows.Pairwise (·.key ≠ ·.key)

instance (rows : List ValidatorEntry) : Decidable (Distinct rows) :=
  inferInstanceAs (Decidable (rows.Pairwise (·.key ≠ ·.key)))

/-- Two snapshots give the same row for every key. -/
def Same (s t : Snapshot) : Prop := ∀ key, s.get? key = t.get? key

variable {rows more : List ValidatorEntry} {row : ValidatorEntry} {key : PublicKey}

theorem ofRows_snoc (rows : List ValidatorEntry) (row : ValidatorEntry) :
    ofRows (rows ++ [row]) = (ofRows rows).insert row := by
  rw [ofRows, List.foldl_append]
  rfl

/-! ### What is given for a key -/

/-- What is put under a key is found there, and nowhere else is anything changed. -/
theorem get?_put (place : PublicKey) (row : ValidatorEntry) (entries : List (PublicKey × ValidatorEntry))
    (key : PublicKey) :
    get? ⟨put place row entries⟩ key = if place = key then some row else get? ⟨entries⟩ key := by
  induction entries with
  | nil => by_cases hkey : place = key <;> simp [get?, put, hkey]
  | cons entry rest ih =>
      obtain ⟨other, old⟩ := entry
      rw [put]
      by_cases hother : other = place
      · rw [if_pos hother]
        by_cases hkey : place = key <;> simp [get?, hother, hkey]
      · rw [if_neg hother]
        by_cases hfirst : other = key
        · have hne : place ≠ key := fun heq => hother (hfirst.trans heq.symm)
          simp [get?, hfirst, hne]
        · simpa [get?, hfirst] using ih

theorem get?_insert (s : Snapshot) (row : ValidatorEntry) (key : PublicKey) :
    (s.insert row).get? key = if row.key = key then some row else s.get? key :=
  get?_put row.key row s.entries key

theorem lastRow?_snoc (rows : List ValidatorEntry) (row : ValidatorEntry) (key : PublicKey) :
    lastRow? (rows ++ [row]) key = if row.key = key then some row else lastRow? rows key := by
  rw [lastRow?, List.filter_append]
  by_cases hkey : row.key = key
  · simp [hkey]
  · simp [hkey, lastRow?]

theorem get?_ofRows (rows : List ValidatorEntry) (key : PublicKey) : (ofRows rows).get? key = lastRow? rows key := by
  induction rows using List.reverseRecOn with
  | nil => rfl
  | append_singleton rows row ih => rw [ofRows_snoc, get?_insert, lastRow?_snoc, ih]

theorem lastRow?_append (rows more : List ValidatorEntry) (key : PublicKey) :
    lastRow? (rows ++ more) key = (lastRow? more key).or (lastRow? rows key) := by
  rw [lastRow?, List.filter_append, List.getLast?_append]
  rfl

theorem mem_and_key_of_lastRow? (h : lastRow? rows key = some row) : row ∈ rows ∧ row.key = key := by
  have hmem := List.mem_of_getLast? h
  rw [List.mem_filter, decide_eq_true_eq] at hmem
  exact hmem

theorem isSome_lastRow?_iff : (lastRow? rows key).isSome = true ↔ ∃ row ∈ rows, row.key = key := by
  rw [lastRow?, List.getLast?_isSome, ne_eq, List.filter_eq_nil_iff]
  simp

/-! ### Keys -/

theorem mem_keys_iff (s : Snapshot) : key ∈ s.keys ↔ (s.get? key).isSome = true := by
  rw [keys, get?, Option.isSome_map, List.find?_isSome, List.mem_map]
  simp

theorem mem_keys_insert (s : Snapshot) : key ∈ (s.insert row).keys ↔ key = row.key ∨ key ∈ s.keys := by
  rw [mem_keys_iff, mem_keys_iff, get?_insert]
  by_cases hkey : row.key = key
  · simp [hkey]
  · simp [hkey, Ne.symm hkey]

theorem mem_keys_ofRows : key ∈ (ofRows rows).keys ↔ ∃ row ∈ rows, row.key = key := by
  rw [mem_keys_iff, get?_ofRows, isSome_lastRow?_iff]

theorem nodup_keys_insert {s : Snapshot} (h : s.keys.Nodup) (row : ValidatorEntry) : (s.insert row).keys.Nodup := by
  obtain ⟨entries⟩ := s
  induction entries with
  | nil => exact List.nodup_singleton _
  | cons entry rest ih =>
      obtain ⟨hother, hrest⟩ := List.nodup_cons.mp h
      rw [insert, keys, put]
      split_ifs with heq
      · exact List.nodup_cons.mpr ⟨hother, hrest⟩
      · refine List.nodup_cons.mpr ⟨fun hmem => ?_, ih hrest⟩
        rcases (mem_keys_insert ⟨rest⟩).mp hmem with hrow | hmem
        · exact heq hrow
        · exact hother hmem

theorem nodup_keys_ofRows (rows : List ValidatorEntry) : (ofRows rows).keys.Nodup := by
  induction rows using List.reverseRecOn with
  | nil => exact List.nodup_nil
  | append_singleton rows row ih =>
      rw [ofRows_snoc]
      exact nodup_keys_insert ih row

/-- Every row stands under its own key. -/
def Keyed (s : Snapshot) : Prop := ∀ entry ∈ s.entries, entry.2.key = entry.1

theorem Keyed.insert {s : Snapshot} (h : s.Keyed) (row : ValidatorEntry) : (s.insert row).Keyed := by
  obtain ⟨entries⟩ := s
  induction entries with
  | nil => exact List.forall_mem_singleton.mpr rfl
  | cons entry rest ih =>
      obtain ⟨hfirst, hrest⟩ := List.forall_mem_cons.mp h
      rw [Snapshot.insert, put]
      split_ifs with heq
      · exact List.forall_mem_cons.mpr ⟨heq.symm, hrest⟩
      · exact List.forall_mem_cons.mpr ⟨hfirst, ih hrest⟩

theorem keyed_ofRows (rows : List ValidatorEntry) : (ofRows rows).Keyed := by
  induction rows using List.reverseRecOn with
  | nil => exact List.forall_mem_nil _
  | append_singleton rows row ih =>
      rw [ofRows_snoc]
      exact ih.insert row

theorem Keyed.key_eq {s : Snapshot} (h : s.Keyed) (hrow : s.get? key = some row) : row.key = key := by
  obtain ⟨entry, hentry, rfl⟩ := Option.map_eq_some_iff.mp hrow
  rw [h entry (List.mem_of_find?_eq_some hentry)]
  simpa using List.find?_some hentry

/-- A snapshot has one row for each key that occurs. -/
theorem size_ofRows (rows : List ValidatorEntry) : (ofRows rows).size = (rows.map (·.key)).dedup.length := by
  have hperm : (ofRows rows).keys.Perm (rows.map (·.key)).dedup := by
    refine (List.perm_ext_iff_of_nodup (nodup_keys_ofRows rows) (List.nodup_dedup _)).mpr fun key => ?_
    rw [mem_keys_ofRows, List.mem_dedup, List.mem_map]
  rw [← hperm.length_eq, keys, List.length_map, size]

theorem distinct_iff_nodup : Distinct rows ↔ (rows.map (·.key)).Nodup := List.pairwise_map.symm

theorem size_ofRows_le (rows : List ValidatorEntry) : (ofRows rows).size ≤ rows.length := by
  rw [size_ofRows, ← @List.length_map _ _ rows (·.key)]
  exact (List.dedup_sublist _).length_le

theorem size_ofRows_eq_iff : (ofRows rows).size = rows.length ↔ Distinct rows := by
  rw [size_ofRows, distinct_iff_nodup, ← List.dedup_eq_self, ← @List.length_map _ _ rows (·.key)]
  exact ⟨(List.dedup_sublist _).eq_of_length, fun h => congrArg List.length h⟩

/-! ### Rows in another order -/

/-- Where no key occurs twice, every row is the last one with its key. -/
theorem lastRow?_eq_some_iff (h : Distinct rows) : lastRow? rows key = some row ↔ row ∈ rows ∧ row.key = key := by
  refine ⟨mem_and_key_of_lastRow?, fun ⟨hmem, hkey⟩ => ?_⟩
  obtain ⟨other, hother⟩ := Option.isSome_iff_exists.mp (isSome_lastRow?_iff.mpr ⟨row, hmem, hkey⟩)
  obtain ⟨hothermem, hotherkey⟩ := mem_and_key_of_lastRow? hother
  have heq : other = row :=
    List.inj_on_of_nodup_map (distinct_iff_nodup.mp h) hothermem hmem (hotherkey.trans hkey.symm)
  rw [hother, heq]

theorem same_of_perm (h : Distinct rows) (hperm : rows.Perm more) : Same (ofRows rows) (ofRows more) := by
  have hmore : Distinct more := (List.Perm.pairwise_iff Ne.symm hperm).mp h
  intro key
  rw [get?_ofRows, get?_ofRows]
  ext row
  rw [lastRow?_eq_some_iff h, lastRow?_eq_some_iff hmore, hperm.mem_iff]

end Snapshot

/-! ### Where rows come from -/

/-- A key that is read is the canonical form of its text. -/
theorem PublicKey.decode_eq (bytes : List UInt8) : codec.decode bytes = (Wire.text.decode bytes).map of := by
  change Json.Reader.run (fun levels => of <$> Wire.text.read levels) bytes = _
  rw [Codec.decode, Json.Reader.run, Json.Reader.run, Json.Reader.whole, Json.Reader.whole, bind_map_left,
    Json.Reader.bind_apply, Json.Reader.bind_apply]
  cases Wire.text.read Json.Reader.levels (.start bytes) with
  | failed e c => rfl
  | done t c =>
      dsimp only
      rw [Json.Reader.bind_apply, Json.Reader.bind_apply]
      cases Json.Reader.ahead c with
      | failed e c' => rfl
      | done first c' => cases first <;> rfl

/-- The validators that are fetched are those of the data of a success. -/
theorem Client.fetchValidators_ok_iff [Url.Idna] {c : Client} {slot : UInt64} {url : Url}
    (hurl : (Endpoint.validators slot).url c.url = .ok url) (network : Http.Network) (s : Snapshot) :
    (c.fetchValidators slot network).result = .ok s ↔ ∃ response bytes rows,
      Http.ComesFrom c.validatorsTimeout.toNat (Fetch.request .get url none) network (.ok (.get, response)) ∧
        Fetch.Succeeds response ∧ response.content? .get = some bytes ∧
        (enveloped (list ValidatorEntry.codec)).decode bytes = .ok rows ∧ Snapshot.ofRows rows = s := by
  have hquery : c.query c.validatorsTimeout (.validators slot) (list ValidatorEntry.codec) network =
      Fetch.get c.validatorsTimeout url (enveloped (list ValidatorEntry.codec)) network := by
    rw [Client.query, hurl]
  rw [(Accessor.fetchValidators_eq c slot network hquery).1]
  exact (Fetch.classified_get c.validatorsTimeout url network _ Snapshot.ofRows).ok s

/-- A snapshot of rows gives for every spelling of a key the last row that has this key, and has no other keys. The row
that stands under a key has this key itself. A snapshot has no more rows than there were, and as many only if no two of
them have the same key. Rows that are put in later come before those that are in it, and where no key occurs twice, the
order of the rows does not matter. The validators that are fetched are the snapshot of the rows in the data of the
response. -/
theorem snapshot_gives_last_rows [Url.Idna] (rows : List ValidatorEntry) :
    (∀ spelling, (Snapshot.ofRows rows).get? (.of spelling) = (rows.filter (·.key = .of spelling)).getLast?) ∧
      (∀ key, key ∈ (Snapshot.ofRows rows).keys ↔ ∃ row ∈ rows, row.key = key) ∧
      ((∀ entry ∈ (Snapshot.ofRows rows).entries, entry.2.key = entry.1) ∧
        ∀ key row, (Snapshot.ofRows rows).get? key = some row → row.key = key) ∧
      ((Snapshot.ofRows rows).size ≤ rows.length ∧
        ((Snapshot.ofRows rows).size = rows.length ↔ Snapshot.Distinct rows)) ∧
      (∀ more key, (Snapshot.ofRows (rows ++ more)).get? key =
        ((Snapshot.ofRows more).get? key).or ((Snapshot.ofRows rows).get? key)) ∧
      (Snapshot.Distinct rows → ∀ other, rows.Perm other → (Snapshot.ofRows rows).Same (.ofRows other)) ∧
      (∀ bytes, PublicKey.codec.decode bytes = (text.decode bytes).map PublicKey.of) ∧
      ∀ (c : Client) (slot : UInt64) (url : Url), (Endpoint.validators slot).url c.url = .ok url →
        ∀ network s, (c.fetchValidators slot network).result = .ok s ↔ ∃ response bytes rows,
          Http.ComesFrom c.validatorsTimeout.toNat (Fetch.request .get url none) network (.ok (.get, response)) ∧
            Fetch.Succeeds response ∧ response.content? .get = some bytes ∧
            (enveloped (list ValidatorEntry.codec)).decode bytes = .ok rows ∧ Snapshot.ofRows rows = s := by
  refine ⟨fun spelling => Snapshot.get?_ofRows rows (.of spelling), fun key => Snapshot.mem_keys_ofRows,
    ⟨Snapshot.keyed_ofRows rows, fun key row hrow => (Snapshot.keyed_ofRows rows).key_eq hrow⟩,
    ⟨Snapshot.size_ofRows_le rows, Snapshot.size_ofRows_eq_iff⟩, fun more key => ?_,
    fun hdistinct other hperm => Snapshot.same_of_perm hdistinct hperm, PublicKey.decode_eq,
    fun c slot url hurl network s => Client.fetchValidators_ok_iff hurl network s⟩
  simp only [Snapshot.get?_ofRows, Snapshot.lastRow?_append]

def ValidatorEntry.active (index : UInt64) (spelling : String) : ValidatorEntry :=
  ⟨index, "32000000000", "active_ongoing", .of spelling⟩

/-- The answer of a node with two validators. -/
def Http.Response.twoValidators : Http.Response where
  status := 200
  body := (enveloped (list ValidatorEntry.codec)).encode [.active 0 "0xAA", .active 7 "bb "]

section

open scoped Url.Idna

theorem snapshot_gives_last_rows_twoValidators :
    Snapshot.Distinct [.active 0 "0xAA", .active 7 "bb "] ∧
      (Snapshot.ofRows [.active 0 "0xAA", .active 7 "bb "]).Same (.ofRows [.active 7 "bb ", .active 0 "0xAA"]) ∧
      (Client.atLocalhost.fetchValidators 9 (.reached [{ response := some .twoValidators }])).result =
        .ok (.ofRows [.active 0 "0xAA", .active 7 "bb "]) := by
  have hdistinct : Snapshot.Distinct [.active 0 "0xAA", .active 7 "bb "] := by decide +kernel
  have hurl : (Endpoint.validators 9).url Client.atLocalhost.url =
      .ok ⟨"http", .divided (some { host := .name "localhost", port := some 5052 })
        ["eth", "v1", "beacon", "states", "9", "validators"], some "status=active%2Cpending", none⟩ := by decide +kernel
  have hread := (ValidatorEntry.restores.faithfulWrapped (by decide)).listEnveloped.decode_encode
    [.active 0 "0xAA", .active 7 "bb "] trivial
  obtain ⟨-, -, -, -, -, hperm, -, hfetched⟩ := snapshot_gives_last_rows [.active 0 "0xAA", .active 7 "bb "]
  refine ⟨hdistinct, hperm hdistinct _ (.swap _ _ []), (hfetched _ 9 _ hurl _ _).mpr
    ⟨.twoValidators, _, _, Http.outcome_send_iff.mp rfl, ?_, rfl, hread, rfl⟩⟩
  rw [Fetch.Succeeds]
  decide

end

end ChainHead
