import ChainHead.Proofs.Service.Moves
import ChainHead.Proofs.Service.Skips
import ChainHead.Proofs.Stream.Broadcast

/-! A service whose node brings heads, one list of them per connection, and a listener that goes on receiving. What
has been heard, what is in the channel and what is still to come are together all heads, at each moment of each
run; and each move takes one from the same number of moves that are left, so that in the end nothing is left to
come. -/

namespace ChainHead

open ChainHead.Stream

/-- The items of a session that brings the given heads and is over then. -/
def closing (heads : List HeadEvent) : List StreamItem := heads.map .head ++ [.failed (.stream .endOfBody)]

/-- Where a service is in its session: what it does, what its session still yields, the heads that are to come of
it, the moves that it takes until the next connection, and whether it waits for an answer that never comes. -/
inductive Stage : Phase → Option (List StreamItem × Bool) → List HeadEvent → Nat → Bool → Prop
  | starting (session : Option (List StreamItem × Bool)) : Stage .starting session [] 1 false
  | asking : Stage .waiting none [] 0 false
  | connecting (heads : List HeadEvent) :
      Stage .waiting (some (.connected :: closing heads, false)) heads (3 * heads.length + 4) false
  | listening (heads : List HeadEvent) :
      Stage .waiting (some (closing heads, false)) heads (3 * heads.length + 3) false
  | holding (head : HeadEvent) (heads : List HeadEvent) :
      Stage (.delivering head) (some (closing heads, false)) (head :: heads) (3 * heads.length + 5) false
  | pausing (session : Option (List StreamItem × Bool)) : Stage .pausing session [] 2 false
  | silent : Stage .waiting (some ([], true)) [] 0 true

theorem Stage.coming_eq {phase : Phase} {session : Option (List StreamItem × Bool)} {coming : List HeadEvent}
    {own : Nat} (h : Stage phase session coming own true) : coming = [] := by
  cases h
  rfl

/-- The moves that connections take, three for each head and five of their own, and the one behind the last
connection, to which no answer comes. -/
def movesAhead (last : Bool) (lists : List (List HeadEvent)) : Nat :=
  if last then 0 else 3 * lists.flatten.length + 5 * lists.length + 1

/-- What is always true of a listener and its world, if the node brings lists of heads: some of them by
connections that are ahead, the heads of the present one, and those in the channel. -/
structure Reception.Awaits (s : Service) (total : Nat) (all : List HeadEvent) (lists : List (List HeadEvent))
    (coming : List HeadEvent) (own : Nat) (last : Bool) (r : Reception) : Prop where
  service_eq : r.world.service = s
  exit?_eq : r.world.feed.exit? = none
  capacity_pos : 0 < r.world.feed.capacity
  network_eq : ∃ replies, List.Forall₂ Broadcasts replies lists ∧ r.world.network = .reached (replies.map .replied)
  stage : Stage r.world.feed.phase r.world.session coming own last
  account : r.heard ++ r.world.feed.channel ++ coming ++ lists.flatten = all
  requests_eq : r.world.requests.length + lists.length = total + if last then 1 else 0
  lists_eq : last = true → lists = []
  log_eq : r.world.feed.log.any isSkip = false

def Reception.movesLeft (lists : List (List HeadEvent)) (own : Nat) (last : Bool) (r : Reception) : Nat :=
  own + r.world.feed.channel.length + movesAhead last lists

namespace Reception

variable {s : Service} {target : Http.Target} {total : Nat} {all : List HeadEvent} {lists : List (List HeadEvent)}
  {coming : List HeadEvent} {own : Nat} {last : Bool} {r next : Reception}

/-- What is left is the same after a move, but for one move less. -/
def Goes (s : Service) (total : Nat) (all : List HeadEvent) (left : Nat) (next : Reception) : Prop :=
  ∃ lists coming own last, next.Awaits s total all lists coming own last ∧
    next.movesLeft lists own last + 1 = left

theorem Awaits.receive (h : r.Awaits s total all lists coming own last)
    (hmove : r.move? .receive = some next) : Goes s total all (r.movesLeft lists own last) next := by
  obtain ⟨w, hact, rfl⟩ := Option.map_eq_some_iff.mp hmove
  obtain ⟨f, hstep, rfl⟩ := World.act_eq_some_iff.mp hact
  cases hstep with
  | @receive head rest hchannel _ =>
      refine ⟨lists, coming, own, last, ⟨h.service_eq, h.exit?_eq, h.capacity_pos, h.network_eq, h.stage, ?_,
        h.requests_eq, h.lists_eq, h.log_eq⟩, ?_⟩
      · have haccount := h.account
        rw [hchannel] at haccount ⊢
        rw [← haccount]
        simp
      · simp only [movesLeft, hchannel, List.length_cons]
        omega

theorem Awaits.wake (h : r.Awaits s total all lists coming own last)
    (hmove : r.move? .wake = some next) : Goes s total all (r.movesLeft lists own last) next := by
  obtain ⟨w, hact, rfl⟩ := Option.map_eq_some_iff.mp hmove
  obtain ⟨f, hstep, rfl⟩ := World.act_eq_some_iff.mp hact
  cases hstep with
  | wake hphase _ =>
      have hstage := h.stage
      have haccount := h.account
      rw [hphase] at hstage
      cases hstage
      refine ⟨lists, [], 1, false, ⟨h.service_eq, h.exit?_eq, h.capacity_pos, h.network_eq, .starting _, haccount,
        h.requests_eq, h.lists_eq, h.log_eq⟩, ?_⟩
      simp only [movesLeft]
      omega

theorem connect_nil (hspoken : target.isSpoken = true) (left : Nat) :
    connect left target [] = ⟨[], true, [target], []⟩ := by
  rw [connect, if_pos hspoken]

/-- The first response that is ahead is asked for, or none comes any more. -/
theorem Awaits.ask (h : r.Awaits s total all lists [] 0 false) (htarget : Stream.target s.url = .ok target)
    (hspoken : target.isSpoken = true) (hphase : r.world.feed.phase = .waiting)
    (hsession : r.world.session = none) (hmove : r.move? .advance = some next) :
    Goes s total all (r.movesLeft lists 0 false) next := by
  obtain ⟨w, hadvance, rfl⟩ := Option.map_eq_some_iff.mp hmove
  obtain ⟨replies, hreplies, hnetwork⟩ := h.network_eq
  rw [World.advance?_of_no_session h.exit?_eq hphase hsession, World.openSession_eq (h.service_eq ▸ htarget), hnetwork,
    Option.some.injEq] at hadvance
  subst hadvance
  have haccount := h.account
  have hrequests := h.requests_eq
  cases hreplies with
  | nil =>
      rw [open?, List.map_nil, connect_nil hspoken]
      refine ⟨[], [], 0, true, ⟨h.service_eq, h.exit?_eq, h.capacity_pos, ⟨[], .nil, rfl⟩, ?_, haccount, ?_,
        fun _ => rfl, h.log_eq⟩, ?_⟩
      · rw [hphase]
        exact .silent
      · simpa using hrequests
      · simp [movesLeft, movesAhead]
  | @cons reply heads replies lists hreply hreplies =>
      rw [open?, List.map_cons, hreply.connect_eq hspoken]
      refine ⟨lists, heads, 3 * heads.length + 4, false, ⟨h.service_eq, h.exit?_eq, h.capacity_pos,
        ⟨replies, hreplies, rfl⟩, ?_, ?_, ?_, by simp, h.log_eq⟩, ?_⟩
      · rw [hphase]
        exact .connecting heads
      · simpa using haccount
      · simp only [List.length_append, List.length_cons, List.length_nil] at hrequests ⊢
        omega
      · simp only [movesLeft, movesAhead, List.flatten_cons, List.length_append, List.length_cons]
        simp only [Bool.false_eq_true, if_false]
        omega

theorem Awaits.take (h : r.Awaits s total all lists coming own false)
    (hphase : r.world.feed.phase = .waiting) {item : StreamItem} {items : List StreamItem}
    (hsession : r.world.session = some (item :: items, false)) {own' : Nat}
    (hstage : Stage (r.world.feed.take s item).phase (some (items, false)) coming own' false)
    (hown : own' + 1 = own) (hlog : (r.world.feed.take s item).log.any isSkip = false)
    (hmove : r.move? .advance = some next) :
    Goes s total all (r.movesLeft lists own false) next := by
  obtain ⟨w, hadvance, rfl⟩ := Option.map_eq_some_iff.mp hmove
  rw [World.advance?_of_item h.exit?_eq hphase hsession, Option.some.injEq, h.service_eq] at hadvance
  subst hadvance
  refine ⟨lists, coming, own', false, ⟨rfl, ?_, ?_, h.network_eq, hstage, ?_, h.requests_eq, h.lists_eq, hlog⟩, ?_⟩
  · rw [Feed.exit?_take]
    exact h.exit?_eq
  · rw [Feed.capacity_take]
    exact h.capacity_pos
  · rw [Feed.channel_take]
    exact h.account
  · rw [movesLeft, movesLeft, Feed.channel_take]
    omega

theorem Awaits.advance (h : r.Awaits s total all lists coming own last)
    (htarget : Stream.target s.url = .ok target) (hspoken : target.isSpoken = true)
    (hmove : r.move? .advance = some next) :
    Goes s total all (r.movesLeft lists own last) next := by
  have hstage := h.stage
  obtain ⟨w, hadvance, hnext⟩ := Option.map_eq_some_iff.mp hmove
  generalize hphase : r.world.feed.phase = phase at hstage
  generalize hsession : r.world.session = session at hstage
  have hlog := h.log_eq
  cases hstage with
  | starting =>
      rw [World.advance?_of_starting hphase, Option.some.injEq, h.service_eq, Feed.connect_of_ok htarget] at hadvance
      subst hadvance
      subst hnext
      refine ⟨lists, [], 0, false, ⟨rfl, h.exit?_eq, h.capacity_pos, h.network_eq, .asking, h.account,
        h.requests_eq, h.lists_eq, ?_⟩, ?_⟩
      · simp [Feed.note, hlog, isSkip, Service.connectingEntry]
      · simp only [movesLeft, Feed.note]
        omega
  | asking => exact h.ask htarget hspoken hphase hsession hmove
  | connecting =>
      refine h.take hphase hsession ?_ rfl ?_ hmove
      · simp only [Feed.take, Feed.note, hphase]
        exact .listening coming
      · simp [Feed.take, Feed.note, hlog, isSkip, Service.subscribedEntry]
  | listening =>
      cases coming with
      | nil =>
          have hend : r.world.feed.take s (.failed (.stream .endOfBody)) =
              (r.world.feed.note [s.failedEntry (.stream .endOfBody)]).pause s := rfl
          refine h.take hphase hsession ?_ rfl ?_ hmove
          · exact .pausing _
          · simp [hend, Feed.pause, Feed.note, hlog, isSkip, Service.failedEntry, Service.endedEntry]
      | cons head heads =>
          refine h.take hphase hsession (.holding head heads) ?_ ?_ hmove
          · rw [List.length_cons]
            omega
          · simp [Feed.take, Feed.note, hlog, isSkip, Service.receivedEntry]
  | holding head heads =>
      rw [World.advance?_of_delivering h.exit?_eq hphase] at hadvance
      obtain ⟨f, hstep, rfl⟩ := World.act_eq_some_iff.mp hadvance
      subst hnext
      cases hstep with
      | send hdelivering _ _ =>
          rw [hphase] at hdelivering
          cases hdelivering
          refine ⟨lists, heads, 3 * heads.length + 3, false, ⟨h.service_eq, h.exit?_eq, h.capacity_pos,
            h.network_eq, ?_, ?_, h.requests_eq, h.lists_eq, hlog⟩, ?_⟩
          · rw [hsession]
            exact .listening heads
          · have haccount := h.account
            simpa using haccount
          · simp only [movesLeft, List.length_append, List.length_singleton]
            omega
  | pausing =>
      rw [World.advance?_of_pausing h.exit?_eq hphase] at hadvance
      cases hadvance
  | silent =>
      rw [World.advance?_of_silence h.exit?_eq hphase hsession] at hadvance
      cases hadvance

/-! ### Runs -/

theorem Awaits.move (h : r.Awaits s total all lists coming own last)
    (htarget : Stream.target s.url = .ok target) (hspoken : target.isSpoken = true) {move : Move}
    (hmove : r.move? move = some next) : Goes s total all (r.movesLeft lists own last) next := by
  cases move with
  | advance => exact h.advance htarget hspoken hmove
  | wake => exact h.wake hmove
  | receive => exact h.receive hmove

theorem Awaits.moves (h : r.Awaits s total all lists coming own last)
    (htarget : Stream.target s.url = .ok target) (hspoken : target.isSpoken = true) {moves : List Move}
    (hrun : r.moves? moves = some next) :
    ∃ lists' coming' own' last', next.Awaits s total all lists' coming' own' last' ∧
      moves.length + next.movesLeft lists' own' last' = r.movesLeft lists own last := by
  -- a move makes what is left one less, so moves made and moves left have the same sum throughout
  induction moves generalizing r lists coming own last with
  | nil =>
      cases hrun
      exact ⟨lists, coming, own, last, h, Nat.zero_add _⟩
  | cons move rest ih =>
      obtain ⟨mid, hmove, hrest⟩ := Option.bind_eq_some_iff.mp hrun
      obtain ⟨_, _, _, _, hmid, hless⟩ := h.move htarget hspoken hmove
      obtain ⟨lists', coming', own', last', hnext, hleft⟩ := ih hmid hrest
      refine ⟨lists', coming', own', last', hnext, ?_⟩
      rw [List.length_cons]
      omega

theorem Awaits.isSome_receive (h : r.Awaits s total all lists coming own last)
    (hchannel : r.world.feed.channel ≠ []) : (r.move? .receive).isSome = true := by
  obtain ⟨head, rest, hcons⟩ := List.exists_cons_of_ne_nil hchannel
  rw [move?, World.act_of_step (.receive hcons (Feed.exit?_eq_none_iff.mp h.exit?_eq).2)]
  rfl

theorem isSome_advance {w : World} (h : r.world.advance? = some w) : (r.move? .advance).isSome = true := by
  rw [move?, h]
  rfl

/-- As long as moves are left, one of them is possible. -/
theorem Awaits.exists_move (h : r.Awaits s total all lists coming own last)
    (hleft : 0 < r.movesLeft lists own last) : ∃ move, (r.move? move).isSome = true := by
  by_cases hchannel : r.world.feed.channel = []
  · -- the channel has room, so neither the service nor the end of a pause waits for the listener
    have hstage := h.stage
    generalize hphase : r.world.feed.phase = phase at hstage
    generalize hsession : r.world.session = session at hstage
    cases hstage with
    | starting => exact ⟨.advance, isSome_advance (World.advance?_of_starting hphase)⟩
    | asking => exact ⟨.advance, isSome_advance (World.advance?_of_no_session h.exit?_eq hphase hsession)⟩
    | connecting => exact ⟨.advance, isSome_advance (World.advance?_of_item h.exit?_eq hphase hsession)⟩
    | listening =>
        cases coming with
        | nil => exact ⟨.advance, isSome_advance (World.advance?_of_item h.exit?_eq hphase hsession)⟩
        | cons head heads =>
            exact ⟨.advance, isSome_advance (World.advance?_of_item h.exit?_eq hphase hsession)⟩
    | holding head heads =>
        have hroom : r.world.feed.channel.length < r.world.feed.capacity := by
          rw [hchannel]
          exact h.capacity_pos
        have hadvance := World.advance?_of_delivering h.exit?_eq hphase
        rw [World.act_of_step (.send hphase h.exit?_eq hroom)] at hadvance
        exact ⟨.advance, isSome_advance hadvance⟩
    | pausing =>
        refine ⟨.wake, ?_⟩
        rw [move?, World.act_of_step (.wake hphase h.exit?_eq)]
        rfl
    | silent => simp [movesLeft, hchannel, movesAhead] at hleft
  · exact ⟨.receive, h.isSome_receive hchannel⟩

/-- Where no move is left, all heads have been heard. -/
theorem Awaits.done (h : r.Awaits s total all lists coming own last)
    (hleft : r.movesLeft lists own last = 0) : r.heard = all ∧ r.world.requests.length = total + 1 := by
  have haccount := h.account
  have hrequests := h.requests_eq
  cases hlast : last with
  | false =>
      rw [movesLeft, movesAhead, hlast] at hleft
      simp at hleft
  | true =>
      have hstage := h.stage
      have hchannel : r.world.feed.channel = [] := by
        apply List.eq_nil_of_length_eq_zero
        rw [movesLeft] at hleft
        omega
      rw [hlast] at hstage hrequests
      rw [h.lists_eq hlast, hchannel] at haccount
      rw [h.lists_eq hlast] at hrequests
      rw [hstage.coming_eq] at haccount
      exact ⟨by simpa using haccount, hrequests⟩

/-- A service that is about to begin in a network in which the node gives these responses. -/
def start (s : Service) (replies : List Reply) (room : Nat) : Reception where
  world := { service := s, feed := Feed.fresh room, started := true, network := .reached (replies.map .replied) }

theorem awaits_start (s : Service) {replies : List Reply} {room : Nat} (hroom : 0 < room)
    (hreplies : List.Forall₂ Broadcasts replies lists) :
    (start s replies room).Awaits s lists.length lists.flatten lists [] 1 false where
  service_eq := rfl
  exit?_eq := rfl
  capacity_pos := hroom
  network_eq := ⟨replies, hreplies, rfl⟩
  stage := .starting none
  account := rfl
  requests_eq := Nat.zero_add _
  lists_eq := by simp
  log_eq := rfl

end Reception

/-- A node brings lists of heads, each by a connection of its own that is over then. Whatever the order of the
moves, a listener that goes on receiving hears the heads of all lists in their order and nothing else, no event
is passed over as malformed, and the service asks once more. A run has no more moves than all this takes, and
can be continued as long as it has fewer. -/
theorem broadcast_is_heard {s : Service} {target : Http.Target} {room : Nat} {replies : List Reply}
    {lists : List (List HeadEvent)} {moves : List Move} {r : Reception}
    (htarget : Stream.target s.url = .ok target) (hspoken : target.isSpoken = true) (hroom : 0 < room)
    (hreplies : List.Forall₂ Broadcasts replies lists)
    (hrun : (Reception.start s replies room).moves? moves = some r) :
    r.heard <+: lists.flatten ∧
      (∀ entry ∈ r.world.feed.log, entry.message ≠ "Malformed head event, skipping") ∧
      moves.length ≤ 3 * lists.flatten.length + 5 * lists.length + 2 ∧
      (moves.length < 3 * lists.flatten.length + 5 * lists.length + 2 → ∃ move, (r.move? move).isSome = true) ∧
      (moves.length = 3 * lists.flatten.length + 5 * lists.length + 2 →
        r.heard = lists.flatten ∧ r.world.requests.length = lists.length + 1) := by
  obtain ⟨lists', coming, own, last, h, hmoves⟩ :=
    (Reception.awaits_start s hroom hreplies).moves htarget hspoken hrun
  have hstart : (Reception.start s replies room).movesLeft lists 1 false =
      3 * lists.flatten.length + 5 * lists.length + 2 := by
    rw [Reception.movesLeft, movesAhead]
    simp only [Reception.start, Feed.fresh, List.length_nil, Bool.false_eq_true, if_false]
    omega
  rw [hstart] at hmoves
  refine ⟨?_, fun entry hentry hmessage => ?_, by omega, fun hless => h.exists_move (by omega), fun hequal =>
    h.done (by omega)⟩
  · rw [← h.account, List.append_assoc, List.append_assoc]
    exact List.prefix_append _ _
  · have hskip := List.any_eq_false.mp h.log_eq entry hentry
    exact hskip (decide_eq_true hmessage)

/-- The moves of a listener that receives the head while the service pauses. -/
def Move.sample : List Move :=
  [.advance, .advance, .advance, .advance, .advance, .advance, .receive, .wake, .advance, .advance]

theorem broadcast_is_heard_sample :
    ∃ r, Stream.target Service.atLocalhost.url = .ok localEvents ∧ localEvents.isSpoken = true ∧
      List.Forall₂ Broadcasts [sampleReply] [[⟨7, "0x\"é", "\n"⟩]] ∧
      (Reception.start .atLocalhost [sampleReply] 1).moves? Move.sample = some r ∧
      r.heard = [⟨7, "0x\"é", "\n"⟩] ∧ r.world.requests.length = 2 := by
  have htarget : Stream.target Service.atLocalhost.url = .ok localEvents := by decide +kernel
  have hreplies : List.Forall₂ Broadcasts [sampleReply] [[⟨7, "0x\"é", "\n"⟩]] :=
    .cons broadcasts_sampleReply .nil
  have hpossible :
      ((Reception.start .atLocalhost [sampleReply] 1).moves? Move.sample).isSome = true := by
    decide +kernel
  obtain ⟨r, hrun⟩ := Option.isSome_iff_exists.mp hpossible
  obtain ⟨-, -, -, -, hdone⟩ := broadcast_is_heard htarget isSpoken_localEvents (by decide) hreplies hrun
  exact ⟨r, htarget, isSpoken_localEvents, hreplies, hrun, hdone rfl⟩

end ChainHead
