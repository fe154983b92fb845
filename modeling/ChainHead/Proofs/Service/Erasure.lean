import ChainHead.Proofs.Service.Breaking
import ChainHead.Proofs.Service.Supply

/-! Sessions from which the events that are skipped have been taken out. A run over time that follows given sessions
is, without what it skips, a run that follows the sessions without it, and any of those comes from one that follows
the given sessions. Both do the same at the same times, and nothing but their logs tells one from the other. Every
other error ends its session, and a whole pause comes behind it. -/

namespace ChainHead

def Event.skipped? : Event → Option Error
  | .yielded item => item.skipped?
  | _ => none

/-- What is told, without what is told of skipped events. -/
def keptRecord (record : List (Nat × Event)) : List (Nat × Event) := record.filter (·.2.skipped?.isNone)

/-- Two services at the same time that differ at most in what their logs say about skipped events. -/
structure Clocked.Alike (c d : Clocked) : Prop where
  feed_eq : d.feed = c.feed.bare
  now_eq : d.now = c.now
  pausedAt_eq : c.feed.phase = .pausing → d.pausedAt = c.pausedAt

theorem keptRecord_append (front back : List (Nat × Event)) :
    keptRecord (front ++ back) = keptRecord front ++ keptRecord back :=
  List.filter_append front back

theorem keptRecord_map (time : Nat) (events : List Event) :
    keptRecord (events.map (time, ·)) = (events.filter (·.skipped?.isNone)).map (time, ·) :=
  List.filter_map

theorem isSkip_eq_false_of_isTurn {entry : LogEntry} (h : isTurn entry = true) : isSkip entry = false := by
  rw [isTurn, Bool.or_eq_true, decide_eq_true_eq, decide_eq_true_eq] at h
  rcases h with h | h <;> simp [isSkip, h]

namespace Feed.Step

variable {s : Service} {f g : Feed} {action : Action}

theorem events_bare (h : Step s f action g) (haction : action.skipped? = none) :
    (action.events f g).filter (·.skipped?.isNone) = action.events f.bare g.bare := by
  obtain ⟨entries, hlog⟩ := h.exists_log_eq
  have hbare : g.bare.log = f.bare.log ++ entries.filter (!isSkip ·) := by
    simp only [Feed.bare, hlog, List.filter_append]
  have hturns : (entries.filter (!isSkip ·)).filter isTurn = entries.filter isTurn := by
    rw [List.filter_filter]
    refine List.filter_congr fun entry _ => ?_
    cases hturn : isTurn entry with
    | false => rfl
    | true => simp [isSkip_eq_false_of_isTurn hturn]
  have htold : action.told.filter (·.skipped?.isNone) = action.told := by
    cases action with
    | yield item =>
        have hitem : item.skipped? = none := haction
        simp [Action.told, Event.skipped?, hitem]
    | _ => rfl
  have hlogged (turns : List LogEntry) :
      (turns.map Event.logged).filter (·.skipped?.isNone) = turns.map Event.logged := by
    rw [List.filter_map]
    exact congrArg _ (List.filter_eq_self.mpr fun _ _ => rfl)
  rw [Action.events_eq hlog, Action.events_eq hbare, hturns, List.filter_append, htold, hlogged]

theorem events_of_skipped? {error : Error} (h : Step s f action g) (haction : action.skipped? = some error) :
    (action.events f g).filter (·.skipped?.isNone) = [] := by
  obtain ⟨rfl, hskippable⟩ := Action.exists_of_skipped? haction
  have hlog : g.log = f.log ++ [s.skippedEntry error] := by
    rw [(h.of_skipped? haction).2]
    rfl
  rw [Action.events_eq hlog]
  simp [Action.told, Event.skipped?, StreamItem.skipped?, hskippable, isTurn, Service.skippedEntry]

end Feed.Step

namespace Clocked.Alike

variable {s : Service} {c d : Clocked} {action : Action} {g : Feed} {error : Error}

theorem pass (h : c.Alike d) (time : Nat) :
    Clocked.Alike { c with now := c.now + time } { d with now := d.now + time } where
  feed_eq := h.feed_eq
  now_eq := by rw [h.now_eq]
  pausedAt_eq := h.pausedAt_eq

theorem goTo (h : c.Alike d) : (c.goTo g).Alike (d.goTo g.bare) where
  feed_eq := rfl
  now_eq := h.now_eq
  pausedAt_eq := by
    intro _
    have hphase : d.feed.phase = c.feed.phase := by
      rw [h.feed_eq]
      rfl
    rw [Clocked.goTo, Clocked.goTo, hphase]
    split
    · rename_i hpausing
      exact h.pausedAt_eq hpausing
    · exact h.now_eq

/-- What is skipped does not tell services from each other. -/
theorem goTo_skipped (h : c.Alike d) (hstep : Feed.Step s c.feed action g) (haction : action.skipped? = some error) :
    (c.goTo g).Alike d := by
  obtain ⟨hbare, hnote⟩ := hstep.of_skipped? haction
  obtain ⟨rfl, -⟩ := Action.exists_of_skipped? haction
  refine ⟨h.feed_eq.trans hbare.symm, h.now_eq, fun hpausing => ?_⟩
  have hphase : g.phase = c.feed.phase := by
    rw [hnote]
    rfl
  cases hstep with
  | yield _ hwaiting => cases hpausing.symm.trans (hphase.trans hwaiting)

/-- The same actions are possible for both, but for what is skipped. -/
theorem allows_iff (h : c.Alike d) (haction : action.skipped? = none) {e : Feed} :
    d.Allows s action e ↔ ∃ g, c.Allows s action g ∧ g.bare = e := by
  -- both have begun their pause at the same time
  have hclock {g : Feed} (hstep : c.feed.step? s action = some g) (hwake : action = .wake) :
      d.pausedAt + s.reconnectDelay.toNat ≤ d.now ↔ c.pausedAt + s.reconnectDelay.toNat ≤ c.now := by
    have hpausing : c.feed.phase = .pausing := by
      subst hwake
      cases Feed.Step.of_step? hstep with
      | wake hphase => exact hphase
    rw [h.pausedAt_eq hpausing, h.now_eq]
  simp only [Clocked.Allows, h.feed_eq, Feed.step?_bare haction, Option.map_eq_some_iff]
  constructor
  · rintro ⟨⟨g, hstep, rfl⟩, htime⟩
    exact ⟨g, ⟨hstep, fun hwake => (hclock hstep hwake).mp (htime hwake)⟩, rfl⟩
  · rintro ⟨g, ⟨hstep, htime⟩, rfl⟩
    exact ⟨⟨g, hstep, rfl⟩, fun hwake => (hclock hstep hwake).mpr (htime hwake)⟩

end Clocked.Alike

/-! ### Runs -/

namespace Timeline

variable {s : Service} {room : Nat} {actions : List Action} {record : List (Nat × Event)} {c d : Clocked}

theorem exists_bare (h : Timeline s room actions record c) :
    ∃ d, Timeline s room (kept actions) (keptRecord record) d ∧ c.Alike d := by
  induction h with
  | here => exact ⟨_, .here, rfl, rfl, fun _ => rfl⟩
  | pass time _ ih =>
      obtain ⟨d, hd, halike⟩ := ih
      exact ⟨_, hd.pass time, halike.pass time⟩
  | @act actions record c action g hallows _ ih =>
      obtain ⟨d, hd, halike⟩ := ih
      have hstep := Feed.Step.of_step? hallows.1
      rw [kept_append, keptRecord_append, keptRecord_map]
      cases haction : action.skipped? with
      | none =>
          have hdone := hd.act ((halike.allows_iff haction).mpr ⟨g, hallows, rfl⟩)
          rw [halike.feed_eq, ← hstep.events_bare haction, halike.now_eq] at hdone
          rw [kept_of_skipped?_eq_none haction]
          exact ⟨_, hdone, halike.goTo⟩
      | some error =>
          rw [kept_of_skipped? haction, hstep.events_of_skipped? haction, List.map_nil, List.append_nil,
            List.append_nil]
          exact ⟨d, hd, halike.goTo_skipped hstep haction⟩

/-- A service that waits can skip what is to be skipped, and is as before. -/
theorem exists_yields (h : Timeline s room actions record c) (halike : c.Alike d) {before : List StreamItem}
    (hbefore : ∀ item ∈ before, item.skipped? ≠ none)
    (hwaits : before ≠ [] → c.feed.phase = .waiting ∧ c.feed.exit? = none) :
    ∃ record' c', Timeline s room (actions ++ before.map .yield) record' c' ∧ c'.Alike d ∧
      kept (actions ++ before.map .yield) = kept actions ∧ keptRecord record' = keptRecord record := by
  induction before generalizing actions record c with
  | nil => exact ⟨record, c, by simpa using h, halike, by simp, rfl⟩
  | cons item before ih =>
      obtain ⟨hphase, hexit⟩ := hwaits (by simp)
      obtain ⟨error, herror⟩ := Option.ne_none_iff_exists'.mp (hbefore item List.mem_cons_self)
      have haction : (Action.yield item).skipped? = some error := herror
      have hstep : Feed.Step s c.feed (.yield item) (c.feed.take s item) := .yield item hphase hexit
      have hwaits' : (c.feed.take s item).phase = .waiting ∧ (c.feed.take s item).exit? = none := by
        refine ⟨?_, (Feed.exit?_take c.feed item).trans hexit⟩
        rw [(hstep.of_skipped? haction).2]
        exact hphase
      obtain ⟨record', c', hline, halike', hkept, hrecord⟩ := ih (h.act ⟨hstep.step?_eq, by simp⟩)
        (halike.goTo_skipped hstep haction) (fun item hitem => hbefore item (List.mem_cons_of_mem _ hitem))
        fun _ => hwaits'
      rw [List.append_assoc] at hline hkept
      refine ⟨record', c', hline, halike', ?_, ?_⟩
      · refine hkept.trans ?_
        rw [kept_append, kept_of_skipped? haction, List.append_nil]
      · rw [hrecord, keptRecord_append, keptRecord_map, hstep.events_of_skipped? haction, List.map_nil,
          List.append_nil]

/-- What follows sessions without what is skipped comes from what follows these sessions. -/
theorem exists_of_bare {supply left : Supply} (h : Timeline s room actions record d)
    (hfollows : supply.bare.run? actions = some left) :
    ∃ actions' record' c left', Timeline s room actions' record' c ∧ supply.run? actions' = some left' ∧
      kept actions' = actions ∧ keptRecord record' = record ∧ left'.bare = left ∧ c.Alike d := by
  induction h generalizing left with
  | here =>
      cases hfollows
      exact ⟨[], [], _, supply, .here, rfl, rfl, rfl, rfl, rfl, rfl, fun _ => rfl⟩
  | pass time _ ih =>
      obtain ⟨actions', record', c, left', hline, hfollows', hkept, hrecord, hleft, halike⟩ := ih hfollows
      exact ⟨actions', record', _, left', hline.pass time, hfollows', hkept, hrecord, hleft, halike.pass time⟩
  | @act actions record d action e hallows _ ih =>
      obtain ⟨v, hfront, hstep⟩ := Supply.run?_snoc.mp hfollows
      obtain ⟨front, record', c, u, hline, hfollows', rfl, rfl, rfl, halike⟩ := ih hfront
      obtain ⟨haction, before, hbefore, hdraws, left', hback, hleft⟩ := Supply.exists_of_step?_bare hstep
      -- only a service that waits takes anything, so it can skip what stands before
      have hwaits (hne : before ≠ []) : c.feed.phase = .waiting ∧ c.feed.exit? = none := by
        have hfeed : d.feed.phase = c.feed.phase ∧ d.feed.exit? = c.feed.exit? := by
          rw [halike.feed_eq]
          exact ⟨rfl, rfl⟩
        rw [← hfeed.1, ← hfeed.2]
        rcases hdraws hne with rfl | ⟨item, rfl⟩
        · cases Feed.Step.of_step? hallows.1 with
          | close hphase hexit => exact ⟨hphase, hexit⟩
        · cases Feed.Step.of_step? hallows.1 with
          | yield _ hphase hexit => exact ⟨hphase, hexit⟩
      obtain ⟨record₁, c₁, hline₁, halike₁, hkept₁, hrecord₁⟩ := hline.exists_yields halike hbefore hwaits
      obtain ⟨g, hallows₁, rfl⟩ := (halike₁.allows_iff haction).mp hallows
      refine ⟨_, _, _, left', hline₁.act hallows₁, ?_, ?_, ?_, hleft, halike₁.goTo⟩
      · rw [List.append_assoc, Supply.run?_append, hfollows', Option.bind_some]
        exact hback
      · rw [kept_append, hkept₁, kept_of_skipped?_eq_none haction]
      · rw [keptRecord_append, hrecord₁, keptRecord_map,
          (Feed.Step.of_step? hallows₁.1).events_bare haction, ← halike₁.feed_eq, halike₁.now_eq]

end Timeline

/-- Whatever sessions hold ready and however the listener and whoever ends the service act between, a run that follows
the sessions is, without what it skips, a run that follows the sessions without it. Both make the same attempts, go
through the same phases and states, pause at the same times and move the same heads; the one log is the other without
what it says about skipped events, which is one entry for each of them. Any run that follows the sessions without what
is skipped comes so from one that follows the sessions. An error that is not skipped ends its session: nothing more of
the session is taken, and behind the error comes a whole pause before the next attempt. -/
theorem skipped_events_show_in_log_only (s : Service) (room : Nat) :
    (∀ supply left actions record c, Timeline s room actions record c → Supply.run? supply actions = some left →
      (∃ d, Timeline s room (kept actions) (keptRecord record) d ∧ supply.bare.run? (kept actions) = some left.bare ∧
        d.now = c.now ∧ d.feed = c.feed.bare) ∧
      sessionsOf (kept actions) = (sessionsOf actions).map keptItems ∧
      (Feed.fresh room).turns s (kept actions) = (Feed.fresh room).turns s actions ∧
      (Feed.fresh room).entered s (kept actions) = (Feed.fresh room).entered s actions ∧
      (Feed.fresh room).received s (kept actions) = (Feed.fresh room).received s actions ∧
      c.feed.log.filter isSkip = (actions.filterMap Action.skipped?).map s.skippedEntry) ∧
    (∀ supply left actions record d, Timeline s room actions record d →
      Supply.run? (Supply.bare supply) actions = some left →
        ∃ actions' record' c left', Timeline s room actions' record' c ∧ supply.run? actions' = some left' ∧
          kept actions' = actions ∧ keptRecord record' = record ∧ left'.bare = left ∧ d.now = c.now ∧
          d.feed = c.feed.bare) ∧
    ∀ actions record c, Timeline s room actions record c →
      (∀ front error back, actions = front ++ .yield (.failed error) :: back → error.isSkippable = false →
        ∀ action ∈ back.takeWhile (!Action.isConnect ·), action.item? = none) ∧
      ∀ front time error back, record = front ++ (time, .yielded (.failed error)) :: back →
        error.isSkippable = false → Aftermath s time c back := by
  refine ⟨fun supply left actions record c hline hfollows => ?_, fun supply left actions record d hline hfollows => ?_,
    fun actions record c hline => ⟨fun front error back hactions herror => ?_, fun front time error back hrecord => ?_⟩⟩
  · have hrun := hline.run?_eq
    obtain ⟨d, hd, halike⟩ := hline.exists_bare
    exact ⟨⟨d, hd, Supply.run?_bare hfollows, halike.now_eq, halike.feed_eq⟩, sessionsOf_kept actions,
      Feed.turns_bare hrun, Feed.entered_bare hrun, Feed.received_bare hrun, Feed.skips_of_run? hrun⟩
  · obtain ⟨actions', record', c, left', hline', hfollows', hkept, hrecord, hleft, halike⟩ :=
      hline.exists_of_bare hfollows
    exact ⟨actions', record', c, left', hline', hfollows', hkept, hrecord, hleft, halike.now_eq, halike.feed_eq⟩
  · have hrun := hline.run?_eq
    rw [hactions, Feed.run?_append] at hrun
    obtain ⟨f, -, hback⟩ := Option.bind_eq_some_iff.mp hrun
    obtain ⟨g, hstep, hrest⟩ := Option.bind_eq_some_iff.mp hback
    have hpausing := ((Feed.Step.of_step? hstep).of_broken herror).2.2.1
    exact Feed.item?_eq_none_of_inSession (by simp [Feed.inSession, hpausing]) hrest
  · exact hline.aftermath hrecord

/-- A session that yields an empty event before a head and is over then, and another one. -/
def Supply.sample : Supply where
  later :=
    [([.connected, .failed (.malformedEvent .emptyEvent), .head ⟨7, "0x07", "0x70"⟩, .failed (.stream .endOfBody)],
        false),
      ([.connected], true)]

def Action.overSample : List Action :=
  [.connect, .yield .connected, .yield (.failed (.malformedEvent .emptyEvent)), .yield (.head ⟨7, "0x07", "0x70"⟩),
    .send, .yield (.failed (.stream .endOfBody)), .wake, .connect, .yield .connected]

theorem skipped_events_show_in_log_only_sample :
    ∃ record c d, Timeline .atLocalhost 1 Action.overSample record c ∧
      Timeline .atLocalhost 1 (kept Action.overSample) (keptRecord record) d ∧ d.feed = c.feed.bare ∧
      c.feed.log.filter isSkip = [Service.atLocalhost.skippedEntry (.malformedEvent .emptyEvent)] ∧
      (∃ actions record' e, Timeline .atLocalhost 1 actions record' e ∧ kept actions = kept Action.overSample ∧
        keptRecord record' = keptRecord record) ∧
      ∀ action ∈ [Action.wake], action.item? = none := by
  have hpossible : ((Feed.fresh 1).run? .atLocalhost Action.overSample).isSome = true := by decide +kernel
  have hfollows : Supply.sample.run? Action.overSample = some ⟨[], true, []⟩ := by decide +kernel
  obtain ⟨f, hrun⟩ := Option.isSome_iff_exists.mp hpossible
  obtain ⟨record, c, hline, -⟩ := Timeline.exists_of_run? hrun
  obtain ⟨hforward, hbackward, hbroken⟩ := skipped_events_show_in_log_only .atLocalhost 1
  obtain ⟨⟨d, hd, hfollows', -, hfeed⟩, -, -, -, -, hlog⟩ := hforward _ _ _ _ _ hline hfollows
  obtain ⟨actions, record', e, -, hline', -, hkept, hrecord, -⟩ := hbackward _ _ _ _ _ hd hfollows'
  exact ⟨record, c, d, hline, hd, hfeed, hlog, ⟨actions, record', e, hline', hkept, hrecord⟩,
    (hbroken _ _ _ hline).1 [.connect, .yield .connected, .yield (.failed (.malformedEvent .emptyEvent)),
      .yield (.head ⟨7, "0x07", "0x70"⟩), .send] _ _ rfl rfl⟩

end ChainHead
