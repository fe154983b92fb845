import ChainHead.Program
import ChainHead.Proofs.Settings.Acceptance

/-! Whether settings that are accepted can be run. There is room for at least one head event in them, but nothing keeps
the room below the limit of a channel. A document may write any integer of 64 bits with a sign, and with one beyond the
limit a program that has accepted its settings fails before it follows anything. -/

namespace ChainHead

open Toml (Document exists_ok_of_told)

variable {t : String} {s : Settings}

/-- A channel can be opened if its room does not exceed the limit. -/
theorem open?_headEventBuffer (s : Settings) : Feed.open? s.headEventBuffer.toNat =
    if s.headEventBuffer.toNat ≤ roomLimit then some { capacity := s.headEventBuffer.toNat } else none := by
  have hpos : 0 < s.headEventBuffer.toNat := UInt64.lt_iff_toNat_lt.mp s.buffer_pos
  simp [Feed.open?, hpos]

namespace Settings

/-- The room is not more than the limit unless more is written. -/
theorem headEventBuffer_le_iff {written : Option (Option Int)} {room : UInt64} (h : Given 64 written room) :
    room.toNat ≤ roomLimit ↔ ∀ n, written = some (some n) → n ≤ roomLimit := by
  cases h with
  | standard => simp [roomLimit]
  | written => simp

end Settings

/-- A program with these settings fails if it has no channel, and ends well if it has one. -/
theorem Program.exit_run [Url.Idna] (s : Settings) (network : Http.Network) (events : Stream.Network) :
    (Program.run s network events).exit = if s.headEventBuffer.toNat ≤ roomLimit then 0 else 101 := by
  rw [Program.run, open?_headEventBuffer]
  split_ifs <;> rfl

/-- Accepted settings have a channel, and a program with them ends well over all networks, if and only if no room beyond
the limit is written in their document. Otherwise the program fails, whatever the networks do. -/
theorem accepted_settings_run_iff [Url.Idna] (h : Settings.ofText t = .ok s) : ∃ d, Document.read t = .ok d ∧
    let fits := ∀ n, (Settings.Written.of d.entries).buffer = some (some n) → n ≤ roomLimit
    (fits ↔ ∃ feed, Feed.open? s.headEventBuffer.toNat = some feed) ∧
      ∀ network events, (fits ↔ (Program.run s network events).exit = 0) ∧
        (¬ fits ↔ (Program.run s network events).exit = 101) := by
  obtain ⟨d, hread, hdecodes⟩ := Settings.exists_decodes h
  refine ⟨d, hread, ?_⟩
  rw [← Settings.headEventBuffer_le_iff hdecodes.buffer, open?_headEventBuffer]
  simp only [Program.exit_run]
  by_cases hfits : s.headEventBuffer.toNat ≤ roomLimit <;> simp [hfits]

/-- Settings with the room that is given. -/
def roomyText (room : String) : String :=
  "head_event_buffer = " ++ room ++ "\n[beacon_node]\nname = \"lighthouse\"\nurl = \"http://localhost:5052\"\n"

section

open scoped Url.Idna

/-- With the largest room of a channel the program runs. -/
theorem accepted_settings_run_iff_widest : ∃ s, Settings.ofText (roomyText "2305843009213693951") = .ok s ∧
    ∀ network events, (Program.run s network events).exit = 0 := by
  have htold : (Settings.ofText (roomyText "2305843009213693951")).toOption.map (·.headEventBuffer) =
      some 2305843009213693951 := by decide +kernel
  obtain ⟨s, hs, hroom⟩ := exists_ok_of_told htold
  obtain ⟨d, -, hfits, hrun⟩ := accepted_settings_run_iff hs
  have hopen : ∃ feed, Feed.open? s.headEventBuffer.toNat = some feed := by
    rw [hroom]
    exact ⟨_, rfl⟩
  exact ⟨s, hs, fun network events => (hrun network events).1.mp (hfits.mpr hopen)⟩

/-- With a room of one more the settings are accepted as well, and the program fails. -/
theorem accepted_settings_fail : ∃ s, Settings.ofText (roomyText "2305843009213693952") = .ok s ∧
    Feed.open? s.headEventBuffer.toNat = none ∧ ∀ network events, (Program.run s network events).exit = 101 := by
  have htold : (Settings.ofText (roomyText "2305843009213693952")).toOption.map (·.headEventBuffer) =
      some 2305843009213693952 := by decide +kernel
  obtain ⟨s, hs, hroom⟩ := exists_ok_of_told htold
  refine ⟨s, hs, ?_, fun network events => ?_⟩
  · rw [hroom]
    rfl
  · rw [Program.exit_run, hroom]
    rfl

end

end ChainHead
