import ChainHead.Proofs.Service.Course
import ChainHead.Proofs.Stream.Sessions

/-! What a service asks for. In each attempt it asks for the stream below its own base URL, once at most, and wherever
it is sent by the answer belongs to the same session; so every attempt begins anew at that place. A session tells
that it is connected before it brings any head, and once at most. -/

namespace ChainHead

/-- A session is connected once at most, and before it yields any head. -/
structure ConnectsFirst (items : List StreamItem) : Prop where
  once : items.count .connected ≤ 1
  before_head : ∀ front head back, items = front ++ .head head :: back → .connected ∈ front

namespace ConnectsFirst

variable {items more : List StreamItem}

theorem of_isPrefix (h : ConnectsFirst more) (hfront : items <+: more) : ConnectsFirst items := by
  constructor
  · exact Nat.le_trans (hfront.sublist.count_le _) h.once
  · intro front head back heq
    obtain ⟨rest, rfl⟩ := hfront
    apply h.before_head front head (back ++ rest)
    rw [heq, List.append_assoc, List.cons_append]

theorem of_no_connected_of_no_head (hconnected : .connected ∉ items) (hhead : ∀ head, .head head ∉ items) :
    ConnectsFirst items := by
  constructor
  · rw [List.count_eq_zero_of_not_mem hconnected]
    exact Nat.zero_le 1
  · intro front head back heq
    apply absurd _ (hhead head)
    rw [heq]
    simp

theorem cons (hconnected : .connected ∉ items) : ConnectsFirst (.connected :: items) := by
  constructor
  · have hzero := List.count_eq_zero_of_not_mem hconnected
    exact Nat.le_of_eq (List.count_cons_self.trans (congrArg (· + 1) hzero))
  · intro front head back heq
    cases front with
    | nil => cases heq
    | cons first front =>
        obtain ⟨rfl, -⟩ := List.cons.inj heq
        exact List.mem_cons_self

end ConnectsFirst

namespace Stream

theorem connected_not_mem_bodyItems (chunks : List (List UInt8)) (ending : Ending) :
    .connected ∉ bodyItems chunks ending := by
  have hitem (told : Told) : item? told ≠ some .connected := by
    cases told with
    | error fault => simp [item?]
    | ok event =>
        rw [item?]
        split_ifs
        · split <;> simp
        · simp
  rw [bodyItems, List.mem_append, List.mem_filterMap]
  rintro (⟨told, -, htold⟩ | hend)
  · exact hitem told htold
  · cases ending <;> simp [Ending.items] at hend

theorem connectsFirst_failed (fault : StreamFault) (left : List Connection) :
    ConnectsFirst (Session.failed fault left).items :=
  .of_no_connected_of_no_head (by simp [Session.failed]) (by simp [Session.failed])

theorem connectsFirst_connect (left : Nat) (target : Http.Target) (connections : List Connection) :
    ConnectsFirst (connect left target connections).items := by
  fun_induction connect left target connections with
  | case1 => exact .of_no_connected_of_no_head (by simp) (by simp)
  | case5 => exact .of_no_connected_of_no_head (by simp) (by simp)
  | case6 => exact .cons (connected_not_mem_bodyItems _ _)
  | case8 _ _ _ _ _ _ _ _ _ _ ih => exact ih
  | _ => exact connectsFirst_failed _ []

theorem connectsFirst_open? (target : Http.Target) (network : Network) :
    ConnectsFirst (open? target network).items := by
  cases network with
  | unreachable => exact connectsFirst_failed _ _
  | reached connections => exact connectsFirst_connect _ _ _

end Stream

/-- What becomes of an attempt: what it has yielded, and its session once it has asked for one. -/
structure Asked where
  yielded : List StreamItem := []
  session : Option Stream.Session := none

namespace Asked

def items (a : Asked) : List StreamItem := (a.session.map (·.items)).getD []

def requests (a : Asked) : List Http.Target := (a.session.map (·.requests)).getD []

/-- An attempt of a service: its session is that of the service's own target, and has yielded its first items. -/
structure IsOf (s : Service) (a : Asked) : Prop where
  yielded_prefix : a.yielded <+: a.items
  session_eq : ∀ session ∈ a.session, ∃ target network,
    Stream.target s.url = .ok target ∧ session = Stream.open? target network

variable {s : Service} {a : Asked}

theorem IsOf.connectsFirst (h : a.IsOf s) : ConnectsFirst a.yielded := by
  refine .of_isPrefix ?_ h.yielded_prefix
  cases hsession : a.session with
  | none =>
      rw [items, hsession]
      exact .of_no_connected_of_no_head (by simp) (by simp)
  | some session =>
      obtain ⟨target, network, -, rfl⟩ := h.session_eq session hsession
      rw [items, hsession]
      exact Stream.connectsFirst_open? target network

theorem IsOf.first_request (h : a.IsOf s) : ∀ first ∈ a.requests.head?, Stream.target s.url = .ok first := by
  intro first hfirst
  cases hsession : a.session with
  | none =>
      rw [requests, hsession] at hfirst
      cases hfirst
  | some session =>
      obtain ⟨target, network, htarget, rfl⟩ := h.session_eq session hsession
      rw [requests, hsession] at hfirst
      rw [Stream.eq_of_mem_head?_open? hfirst, htarget]

end Asked

/-! ### Along a course -/

/-- Whether the service follows a session, or holds a head of it. -/
def Feed.isFollowing (f : Feed) : Bool :=
  match f.phase with
  | .waiting | .delivering _ => true
  | _ => false

theorem Feed.Step.isFollowing_of_isFollowing {s : Service} {f g : Feed} {action : Action}
    (h : Feed.Step s f action g) (hconnect : action.isConnect = false) (hg : g.isFollowing = true) :
    f.isFollowing = true := by
  cases h with
  | connect => cases hconnect
  | yield item hphase => rw [isFollowing, hphase]
  | send hphase => rw [isFollowing, hphase]
  | close => cases hg
  | wake => cases hg
  | stop => cases hg
  | _ => exact hg

namespace World

/-- What is always true of a world and of what its service has asked for: the requests are those of the attempts,
and the session still brings what the last attempt has not yielded yet. -/
structure HasAsked (s : Service) (actions : List Action) (asked : List Asked) (w : World) : Prop where
  service_eq : w.service = s
  sessions_eq : sessionsOf actions = asked.map Asked.yielded
  requests_eq : w.requests = asked.flatMap Asked.requests
  isOf : ∀ a ∈ asked, a.IsOf s
  last_eq : w.feed.isFollowing = true → ∃ front last, asked = front ++ [last] ∧
    last.items = last.yielded ++ (w.session.map Prod.fst).getD [] ∧ (w.session = none → last.session = none)

variable {s : Service} {start w v : World} {actions more : List Action} {asked : List Asked}

theorem HasAsked.act (h : w.HasAsked s actions asked) {action : Action} {f : Feed}
    (hstep : Feed.Step w.service w.feed action f) (hitem : action.item? = none) (hconnect : action.isConnect = false) :
    HasAsked s (actions ++ [action]) asked { w with feed := f } where
  service_eq := h.service_eq
  sessions_eq := (sessionsOf_of_item?_eq_none hitem hconnect actions).trans h.sessions_eq
  requests_eq := h.requests_eq
  isOf := h.isOf
  last_eq hf := h.last_eq (hstep.isFollowing_of_isFollowing hconnect hf)

theorem HasAsked.begin (h : w.HasAsked s actions asked) :
    HasAsked s (actions ++ [.connect]) (asked ++ [⟨[], none⟩])
      { w with session := none, feed := w.feed.connect w.service } where
  service_eq := h.service_eq
  sessions_eq := by
    rw [sessionsOf_connect, h.sessions_eq, List.map_append]
    rfl
  requests_eq := by
    rw [List.flatMap_append]
    simpa [Asked.requests] using h.requests_eq
  isOf := by
    intro a ha
    rcases List.mem_append.mp ha with ha | ha
    · exact h.isOf a ha
    · rw [List.mem_singleton.mp ha]
      exact ⟨List.prefix_rfl, by simp⟩
  last_eq _ := ⟨asked, ⟨[], none⟩, rfl, rfl, fun _ => rfl⟩

theorem HasAsked.ask (h : w.HasAsked s actions asked) (hphase : w.feed.phase = .waiting) (hsession : w.session = none) :
    ∃ asked', HasAsked s actions asked' w.openSession := by
  obtain ⟨front, last, rfl, hitems, hnone⟩ := h.last_eq (by rw [Feed.isFollowing, hphase])
  have hunasked : last.session = none := hnone hsession
  have hquiet : last.items = [] := by rw [Asked.items, hunasked]; rfl
  have hyielded : last.yielded = [] := by
    rw [hquiet, hsession] at hitems
    exact (List.append_eq_nil_iff.mp hitems.symm).1
  cases htarget : Stream.target w.service.url with
  | error fault =>
      have hopen : w.openSession = { w with session := some ([], true) } := by rw [openSession, htarget]
      rw [hopen]
      refine ⟨front ++ [last], h.service_eq, h.sessions_eq, h.requests_eq, h.isOf, fun _ => ?_⟩
      refine ⟨front, last, rfl, ?_, by simp⟩
      rw [hquiet, hyielded]
      rfl
  | ok target =>
      rw [openSession_eq htarget]
      let session := Stream.open? target w.network
      refine ⟨front ++ [⟨last.yielded, some session⟩], h.service_eq, ?_, ?_, ?_, fun _ => ?_⟩
      · rw [h.sessions_eq, List.map_append, List.map_append]
        rfl
      · have hlast : last.requests = [] := by rw [Asked.requests, hunasked]; rfl
        rw [h.requests_eq, List.flatMap_append, List.flatMap_append, List.flatMap_singleton, List.flatMap_singleton,
          hlast, List.append_nil]
        rfl
      · intro a ha
        rcases List.mem_append.mp ha with ha | ha
        · exact h.isOf a (List.mem_append_left _ ha)
        · rw [List.mem_singleton.mp ha, hyielded]
          refine ⟨List.nil_prefix, fun asked hasked => ?_⟩
          obtain rfl := Option.some.inj hasked
          exact ⟨target, w.network, h.service_eq ▸ htarget, rfl⟩
      · refine ⟨front, ⟨last.yielded, some session⟩, rfl, ?_, by simp⟩
        rw [hyielded]
        rfl

theorem HasAsked.item (h : w.HasAsked s actions asked) (hphase : w.feed.phase = .waiting) {item : StreamItem}
    {rest : List StreamItem} {staysOpen : Bool} (hsession : w.session = some (item :: rest, staysOpen)) :
    ∃ asked', HasAsked s (actions ++ [.yield item]) asked'
      { w with session := some (rest, staysOpen), feed := w.feed.take w.service item } := by
  obtain ⟨front, last, rfl, hitems, -⟩ := h.last_eq (by rw [Feed.isFollowing, hphase])
  have hrest : last.items = (last.yielded ++ [item]) ++ rest := by
    rw [hitems, hsession, List.append_assoc]
    rfl
  refine ⟨front ++ [{ last with yielded := last.yielded ++ [item] }], h.service_eq, ?_, ?_, ?_, fun _ => ?_⟩
  · have hsessions : sessionsOf actions = front.map Asked.yielded ++ [last.yielded] := by
      rw [h.sessions_eq, List.map_append]
      rfl
    rw [sessionsOf_snoc hsessions rfl, List.map_append]
    rfl
  · rw [h.requests_eq, List.flatMap_append, List.flatMap_append]
    rfl
  · intro a ha
    rcases List.mem_append.mp ha with ha | ha
    · exact h.isOf a (List.mem_append_left _ ha)
    · rw [List.mem_singleton.mp ha]
      exact ⟨⟨rest, hrest.symm⟩, (h.isOf last (by simp)).session_eq⟩
  · exact ⟨front, _, rfl, hrest, by simp⟩

theorem Leg.hasAsked (h : w.Leg more v) (hasked : w.HasAsked s actions asked) :
    ∃ asked', v.HasAsked s (actions ++ more) asked' := by
  cases h with
  | act hstep hitem hconnect => exact ⟨asked, hasked.act hstep hitem hconnect⟩
  | begin => exact ⟨_, hasked.begin⟩
  | ask hphase _ hsession =>
      rw [List.append_nil]
      exact hasked.ask hphase hsession
  | item hphase _ hsession => exact hasked.item hphase hsession

/-- Whatever course a world takes from the beginning of its service, what has been asked for in it was asked for by the
attempts, each of them at its turn. -/
theorem Course.hasAsked (h : start.Course actions w) (hservice : start.service = s) {room : Nat}
    (hfeed : start.feed = Feed.fresh room) (hrequests : start.requests = []) :
    ∃ asked, w.HasAsked s actions asked := by
  induction h with
  | here =>
      refine ⟨[], hservice, rfl, hrequests, by simp, fun hfollowing => ?_⟩
      rw [hfeed] at hfollowing
      cases hfollowing
  | on _ hnext ih =>
      obtain ⟨asked, hasked⟩ := ih
      exact hnext.leg.hasAsked hasked

end World

end ChainHead
