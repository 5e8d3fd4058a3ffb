import Cozal.Transposer.Schedule
import Mathlib.Data.List.Nodup

namespace Cozal

open Transposer

/-!
# Expire handles

An expireable event has a handle.  The metadata keeps the handles of the events on the schedule
in two maps, from handles to keys and back, and the two stay in step with the schedule because
no key is used twice (`Cozal.Transposer.Schedule`).

* `HandlesSound` — the invariant: the two maps invert one another, their keys are scheduled,
  and an event that was scheduled with a handle has it as long as it is scheduled.
* `HandlesSound.forget` — an event leaves the schedule and both maps together, whether it is
  expired or popped.
* `expire_event_exact` — what `expire_event` does with a handle, at every point of a chain.
-/

variable {T : Type} [Transposer T]

/-- The maps of expire handles fit the schedule and the work that has been done. -/
structure HandlesSound (ls : List (Label T)) (m : TransposerMetaData T) : Prop where
  inverse : m.expireHandlesForward.Inverse m.expireHandlesBackward
  scheduled : ∀ k h, m.expireHandlesBackward.get k = some h → ∃ p, m.schedule.get k = some p
  issued : ∀ k p h, .accepted k p (some h) ∈ ls → h < m.expireHandleFactory
  unique : ∀ k p k' p' h, .accepted k p (some h) ∈ ls → .accepted k' p' (some h) ∈ ls → k = k'
  live : ∀ k p q h, .accepted k p (some h) ∈ ls → m.schedule.get k = some q →
    m.expireHandlesForward.get h = some k
  known : ∀ h k, m.expireHandlesForward.get h = some k → ∃ p, .accepted k p (some h) ∈ ls
  expired : ∀ h k p, .expired h k p ∈ ls → ∃ q, .accepted k q (some h) ∈ ls

/-- An event that was accepted with a handle is an accepted event. -/
theorem mem_acceptedEvents {ls : List (Label T)} {k : ScheduledTime (Time T)} {p : Scheduled T}
    {h : Option ExpireHandle} (hmem : .accepted k p h ∈ ls) : (k, p) ∈ acceptedEvents ls :=
  List.mem_filterMap.mpr ⟨.add (k, p), List.mem_filterMap.mpr ⟨_, hmem, rfl⟩, rfl⟩

/-! ### What the operations on the maps keep -/

namespace HandlesSound

variable {ls : List (Label T)} {m m' : TransposerMetaData T}

/-- What has been accepted was accepted before the last piece of work, when that accepts nothing. -/
theorem accepted_of_append {l : Label T} (hacc : ∀ k p e, l ≠ .accepted k p e)
    {k : ScheduledTime (Time T)} {p : Scheduled T} {e : Option ExpireHandle}
    (hmem : .accepted k p e ∈ ls ++ [l]) : .accepted k p e ∈ ls := by
  rcases List.mem_append.mp hmem with hmem | hmem
  · exact hmem
  · exact absurd (List.mem_singleton.mp hmem).symm (hacc k p e)

/-- A handle in the maps stays one that an event was accepted with. -/
theorem known_append (h : HandlesSound ls m) (l : Label T) {e : ExpireHandle}
    {k : ScheduledTime (Time T)} (hk : m.expireHandlesForward.get e = some k) :
    ∃ p, .accepted k p (some e) ∈ ls ++ [l] := by
  obtain ⟨p, hp⟩ := h.known e k hk
  exact ⟨p, List.mem_append_left _ hp⟩

/-- So does a handle that has been used, when the last piece of work uses one in the maps. -/
theorem expired_append (h : HandlesSound ls m) {l : Label T}
    (hexp : ∀ e k p, l = .expired e k p → m.expireHandlesForward.get e = some k)
    {e : ExpireHandle} {k : ScheduledTime (Time T)} {p : Scheduled T}
    (hmem : .expired e k p ∈ ls ++ [l]) : ∃ q, .accepted k q (some e) ∈ ls ++ [l] := by
  rcases List.mem_append.mp hmem with hmem | hmem
  · obtain ⟨q, hq⟩ := h.expired e k p hmem
    exact ⟨q, List.mem_append_left _ hq⟩
  · exact h.known_append l (hexp e k p (List.mem_singleton.mp hmem).symm)

/-- Work that leaves the schedule and the maps alone, and neither accepts nor expires. -/
theorem silent {l : Label T} (h : HandlesSound ls m)
    (hl : (∀ k p e, l ≠ .accepted k p e) ∧ ∀ e k p, l ≠ .expired e k p)
    (hs : m'.schedule = m.schedule) (hf : m'.expireHandlesForward = m.expireHandlesForward)
    (hb : m'.expireHandlesBackward = m.expireHandlesBackward)
    (hn : m'.expireHandleFactory = m.expireHandleFactory) : HandlesSound (ls ++ [l]) m' := by
  have hacc : ∀ {k p e}, .accepted k p e ∈ ls ++ [l] → .accepted k p e ∈ ls :=
    accepted_of_append hl.1
  constructor
  case inverse => rw [hf, hb]; exact h.inverse
  case scheduled => rw [hb, hs]; exact h.scheduled
  case issued => rw [hn]; exact fun k p e hmem => h.issued k p e (hacc hmem)
  case unique => exact fun k p k' p' e hmem hmem' => h.unique k p k' p' e (hacc hmem) (hacc hmem')
  case live => rw [hs, hf]; exact fun k p q e hmem => h.live k p q e (hacc hmem)
  case known => rw [hf]; exact fun e k hk => h.known_append l hk
  case expired => exact fun e k p => h.expired_append fun e k p hexp => absurd hexp (hl.2 e k p)

/-- A new event without a handle. -/
theorem schedule {k : ScheduledTime (Time T)} (h : HandlesSound ls m) (p : Scheduled T)
    (hnew : ∀ q e, .accepted k q e ∉ ls) :
    HandlesSound (ls ++ [.accepted k p none]) (m.scheduleEvent k p) := by
  constructor
  case inverse => exact h.inverse
  case scheduled =>
    intro k' e hk'
    obtain ⟨q, hq⟩ := h.scheduled k' e hk'
    simp only [TransposerMetaData.scheduleEvent, OrdMap.get_insert]
    by_cases heq : k' = k
    · exact ⟨p, if_pos heq⟩
    · exact ⟨q, by rw [if_neg heq, hq]⟩
  case issued =>
    intro k' p' e hmem
    exact h.issued k' p' e (by simpa using hmem)
  case unique =>
    intro k₁ p₁ k₂ p₂ e hmem hmem'
    exact h.unique k₁ p₁ k₂ p₂ e (by simpa using hmem) (by simpa using hmem')
  case live =>
    intro k' p' q e hmem hq
    have hmem' : .accepted k' p' (some e) ∈ ls := by simpa using hmem
    have hne : k' ≠ k := by rintro rfl; exact hnew _ _ hmem'
    simp only [TransposerMetaData.scheduleEvent, OrdMap.get_insert, if_neg hne] at hq
    exact h.live k' p' q e hmem' hq
  case known => exact fun e k' hk' => h.known_append _ hk'
  case expired => exact fun e k' p' => h.expired_append (by simp)

/-- A new event with a new handle. -/
theorem scheduleExpireable {k : ScheduledTime (Time T)} (h : HandlesSound ls m)
    (p : Scheduled T) (hnew : ∀ q e, .accepted k q e ∉ ls) (hfree : m.schedule.get k = none) :
    HandlesSound (ls ++ [.accepted k p (some m.expireHandleFactory)])
      (m.scheduleEventExpireable k p).2 := by
  -- the new handle is in use nowhere, nor is the new key
  have hhandle : m.expireHandlesForward.get m.expireHandleFactory = none := by
    rw [Option.eq_none_iff_forall_ne_some]
    intro k' hk'
    obtain ⟨q, hq⟩ := h.known _ k' hk'
    exact lt_irrefl _ (h.issued k' q _ hq)
  have hkey : m.expireHandlesBackward.get k = none := by
    rw [Option.eq_none_iff_forall_ne_some]
    intro e he
    obtain ⟨q, hq⟩ := h.scheduled k e he
    rw [hfree] at hq; cases hq
  have hmem_cases : ∀ {k' p' e},
      Label.accepted k' p' (some e) ∈ ls ++ [.accepted k p (some m.expireHandleFactory)] →
      Label.accepted k' p' (some e) ∈ ls ∨ k' = k ∧ e = m.expireHandleFactory := by
    intro k' p' e hmem
    rcases List.mem_append.mp hmem with hmem | hmem
    · exact Or.inl hmem
    · have heq := List.mem_singleton.mp hmem
      simp only [Label.accepted.injEq, Option.some.injEq] at heq
      exact Or.inr ⟨heq.1, heq.2.2⟩
  constructor
  case inverse => exact h.inverse.insert hhandle hkey
  case scheduled =>
    intro k' e hk'
    simp only [TransposerMetaData.scheduleEventExpireable, TransposerMetaData.scheduleEvent,
      OrdMap.get_insert] at hk' ⊢
    by_cases heq : k' = k
    · exact ⟨p, if_pos heq⟩
    · rw [if_neg heq] at hk'
      obtain ⟨q, hq⟩ := h.scheduled k' e hk'
      exact ⟨q, by rw [if_neg heq, hq]⟩
  case issued =>
    intro k' p' e hmem
    show e < m.expireHandleFactory + 1
    rcases hmem_cases hmem with hmem | ⟨-, rfl⟩
    · exact (h.issued k' p' e hmem).trans (Nat.lt_succ_self _)
    · exact Nat.lt_succ_self _
  case unique =>
    intro k₁ p₁ k₂ p₂ e hmem hmem'
    rcases hmem_cases hmem with hold | ⟨rfl, rfl⟩
    · rcases hmem_cases hmem' with hold' | ⟨rfl, rfl⟩
      · exact h.unique k₁ p₁ k₂ p₂ e hold hold'
      · exact absurd (h.issued k₁ p₁ _ hold) (lt_irrefl _)
    · rcases hmem_cases hmem' with hold' | ⟨rfl, -⟩
      · exact absurd (h.issued k₂ p₂ _ hold') (lt_irrefl _)
      · rfl
  case live =>
    intro k' p' q e hmem hq
    simp only [TransposerMetaData.scheduleEventExpireable, TransposerMetaData.scheduleEvent,
      OrdMap.get_insert] at hq ⊢
    rcases hmem_cases hmem with hold | ⟨rfl, rfl⟩
    · have hne : k' ≠ k := by rintro rfl; exact hnew _ _ hold
      have hlt := h.issued k' p' e hold
      rw [if_neg hne] at hq
      rw [if_neg hlt.ne]
      exact h.live k' p' q e hold hq
    · rw [if_pos rfl]
  case known =>
    intro e k' hk'
    simp only [TransposerMetaData.scheduleEventExpireable, TransposerMetaData.scheduleEvent,
      OrdMap.get_insert] at hk'
    by_cases heq : e = m.expireHandleFactory
    · rw [if_pos heq, Option.some.injEq] at hk'
      exact ⟨p, by rw [heq, hk']; simp⟩
    · rw [if_neg heq] at hk'
      exact h.known_append _ hk'
  case expired => exact fun e k' p' => h.expired_append (by simp)

/-- An event leaves the schedule, and its handle, if it has one, leaves both maps. -/
theorem forget {l : Label T} {k : ScheduledTime (Time T)} (h : HandlesSound ls m)
    (hacc : ∀ k' p e, l ≠ .accepted k' p e)
    (hexp : ∀ e k' p, l = .expired e k' p → m.expireHandlesForward.get e = some k')
    (hs : m'.schedule = m.schedule.remove k)
    (hb : m'.expireHandlesBackward = m.expireHandlesBackward.remove k)
    (hf : m.expireHandlesBackward.get k = none ∧
        m'.expireHandlesForward = m.expireHandlesForward ∨
      ∃ e, m.expireHandlesBackward.get k = some e ∧
        m'.expireHandlesForward = m.expireHandlesForward.remove e)
    (hn : m'.expireHandleFactory = m.expireHandleFactory) : HandlesSound (ls ++ [l]) m' := by
  have hold : ∀ {k' p e}, .accepted k' p e ∈ ls ++ [l] → .accepted k' p e ∈ ls :=
    accepted_of_append hacc
  -- what is left of the handles is what belongs to another key
  have hfwd : ∀ e k', m'.expireHandlesForward.get e = some k' ↔
      k' ≠ k ∧ m.expireHandlesForward.get e = some k' := by
    intro e k'
    rcases hf with ⟨hnone, hf⟩ | ⟨e', he', hf⟩
    · rw [hf]
      constructor
      · intro hk'
        refine ⟨?_, hk'⟩
        rintro rfl
        rw [(h.inverse e k').mp hk'] at hnone; cases hnone
      · exact And.right
    · rw [hf, OrdMap.get_remove_eq_some]
      have hback := (h.inverse e' k).mpr he'
      constructor
      · rintro ⟨hne, hk'⟩
        refine ⟨?_, hk'⟩
        rintro rfl
        rw [(h.inverse e k').mp hk', Option.some.injEq] at he'
        exact hne he'
      · rintro ⟨hne, hk'⟩
        refine ⟨?_, hk'⟩
        rintro rfl
        rw [hback, Option.some.injEq] at hk'
        exact hne hk'.symm
  constructor
  case inverse =>
    rcases hf with ⟨hnone, hf⟩ | ⟨e', he', hf⟩
    · rw [hf, hb]; exact h.inverse.remove_none hnone
    · rw [hf, hb]; exact h.inverse.remove ((h.inverse e' k).mpr he')
  case scheduled =>
    intro k' e hk'
    rw [hb, OrdMap.get_remove_eq_some] at hk'
    obtain ⟨q, hq⟩ := h.scheduled k' e hk'.2
    exact ⟨q, by rw [hs, OrdMap.get_remove_eq_some]; exact ⟨hk'.1, hq⟩⟩
  case issued => rw [hn]; exact fun k' p e hmem => h.issued k' p e (hold hmem)
  case unique =>
    exact fun k₁ p₁ k₂ p₂ e hmem hmem' => h.unique k₁ p₁ k₂ p₂ e (hold hmem) (hold hmem')
  case live =>
    intro k' p q e hmem hq
    rw [hs, OrdMap.get_remove_eq_some] at hq
    exact (hfwd e k').mpr ⟨hq.1, h.live k' p q e (hold hmem) hq.2⟩
  case known => exact fun e k' hk' => h.known_append l ((hfwd e k').mp hk').2
  case expired => exact fun e k' p => h.expired_append hexp

/-- A piece of work keeps the invariant. -/
theorem work {f f' : SaturationFuture T} {l : Label T} (h : HandlesSound ls f.cx.metadata)
    (ho : Ordered ls f) (hw : FutureWork f l f') :
    HandlesSound (ls ++ [l]) f'.cx.metadata := by
  -- an accepted key has a rank that no event has been accepted with, nor is scheduled with
  have hnew : ∀ k, k.rank = f.nextRank → ∀ q e, .accepted k q e ∉ ls := by
    intro k hk q e hmem
    have hlt := ho.below _ (mem_acceptedEvents hmem)
    rw [hk] at hlt
    exact lt_irrefl _ hlt
  have hfree : ∀ k, k.rank = f.nextRank → f.cx.metadata.schedule.get k = none := by
    intro k hk
    rw [Option.eq_none_iff_forall_ne_some]
    intro q hq
    have hlt := ho.below _ (ho.accepted_of_scheduled hq)
    rw [hk] at hlt
    exact lt_irrefl _ hlt
  cases hw with
  | @call caller h₁ h₂ cx l cx' hcx =>
    cases hcx with
    | silent n rng => exact h.silent (by simp) rfl rfl rfl rfl
    | schedule time payload ht => exact h.schedule payload (hnew _ rfl)
    | scheduleExpireable time payload ht =>
      exact h.scheduleExpireable payload (hnew _ rfl) (hfree _ rfl)
    | expire handle key payload hf hs =>
      have hback := (h.inverse handle key).mp hf
      refine h.forget (by simp) ?_ rfl rfl (Or.inr ⟨handle, hback, rfl⟩) rfl
      rintro e k p heq
      obtain ⟨rfl, rfl, rfl⟩ := Label.expired.inj heq
      exact hf
  | @done caller h₁ t cx =>
    cases caller <;> exact h.silent (by simp) rfl rfl rfl rfl
  | inputsDone => exact h.silent (by simp) rfl rfl rfl rfl
  | input => exact h.silent (by simp) rfl rfl rfl rfl
  | @pop time t h₁ cx key payload metadata hkey hpop =>
    obtain ⟨-, hs, -, hn, hb, hf⟩ := TransposerMetaData.popFirstEvent_cases hpop
    exact h.forget (by simp) (by simp) hs hb hf hn

end HandlesSound

/-- The maps are sound at every point of a chain. -/
theorem Reaches.handlesSound {ls : List (Label T)} {f : SaturationFuture T}
    (h : Reaches ls f) : HandlesSound ls f.cx.metadata := by
  induction h with
  | init transposer rngSeed startTime n =>
    exact {
      inverse := .empty
      scheduled := by intro k e he; cases he
      issued := by intro k p e hmem; cases hmem
      unique := by intro k p k' p' e hmem; cases hmem
      live := by intro k p q e hmem; cases hmem
      known := by intro e k hk; cases hk
      expired := by intro e k p hmem; cases hmem }
  | work hreach hstep ih =>
    obtain ⟨l, rfl, hw⟩ := hstep.work
    exact ih.work hreach.ordered hw
  | handleScheduled n _ hw _ ih =>
    obtain ⟨time, t, cx, rfl, rfl⟩ := advance_ready hw
    exact ih
  | handleInput n _ hw _ _ ih =>
    obtain ⟨time, t, cx, rfl, rfl⟩ := advance_ready hw
    exact ih

/-! ### What `expire_event` does -/

/-- What holds of the expire handles at a point of a chain with the metadata `m`, after the
    work `ls`. -/
structure ExpireSound (ls : List (Label T)) (m : TransposerMetaData T) : Prop where
  /-- The two maps invert one another. -/
  inverse : ∀ h k, m.expireHandlesForward.get h = some k ↔
    m.expireHandlesBackward.get k = some h
  /-- The keys of the backward map are scheduled. -/
  scheduled : ∀ k h, m.expireHandlesBackward.get k = some h → ∃ p, m.schedule.get k = some p
  /-- An issued handle gives its event back exactly when that was neither handled nor
      expired. -/
  ok_iff : ∀ k p h, .accepted k p (some h) ∈ ls →
    ((∃ m', m.expireEvent h = .ok (.ok (k.time, p), m')) ↔
      (k, p) ∉ handledEvents ls ∧ (k, p) ∉ expiredEvents ls)
  /-- Otherwise it is refused and nothing changes. -/
  otherwise_refused : ∀ k p h, .accepted k p (some h) ∈ ls →
    ¬ ((k, p) ∉ handledEvents ls ∧ (k, p) ∉ expiredEvents ls) →
    m.expireEvent h = .ok (.error .invalidOrUsedHandle, m)
  /-- The events it takes off the schedule are gone from it. -/
  removed : ∀ k p h m', .accepted k p (some h) ∈ ls →
    m.expireEvent h = .ok (.ok (k.time, p), m') →
    m'.schedule.get k = none ∧ m'.expireEvent h = .ok (.error .invalidOrUsedHandle, m')
  /-- An event that was expired is never handled. -/
  never_handled : ∀ e ∈ expiredEvents ls, e ∉ handledEvents ls
  /-- No event is expired twice. -/
  expired_once : (expiredEvents ls).Nodup
  /-- No handle, issued or not, makes `expire_event` panic. -/
  no_panic : ∀ h site, m.expireEvent h ≠ .panic site

/-- Every scheduled event is one of the accepted ones that were neither expired nor handled. -/
theorem ScheduleSound.get_iff {ls : List (Label T)} {m : TransposerMetaData T}
    (h : ScheduleSound ls m) {k : ScheduledTime (Time T)} {p : Scheduled T}
    (hacc : (k, p) ∈ acceptedEvents ls) :
    m.schedule.get k = some p ↔ (k, p) ∉ handledEvents ls ∧ (k, p) ∉ expiredEvents ls := by
  have hnodup := h.one_fate.nodup_iff.mp (List.Nodup.of_map _ h.keys_nodup)
  obtain ⟨-, -, hdisj⟩ := List.nodup_append.mp hnodup
  constructor
  · intro hget
    have hmem := OrdMap.mem_entries.mpr hget
    constructor
    · intro hh
      exact hdisj _ hmem _ (List.mem_append_right _ hh) rfl
    · intro he
      exact hdisj _ hmem _ (List.mem_append_left _ he) rfl
  · rintro ⟨hh, he⟩
    have hmem := h.one_fate.mem_iff.mp hacc
    simp only [List.mem_append, hh, he, or_false] at hmem
    exact OrdMap.mem_entries.mp hmem

/-- A scheduled key was accepted with the payload it is scheduled with. -/
theorem ScheduleSound.payload {ls : List (Label T)} {m : TransposerMetaData T}
    (h : ScheduleSound ls m) {k : ScheduledTime (Time T)} {p q : Scheduled T}
    (hacc : (k, p) ∈ acceptedEvents ls) (hget : m.schedule.get k = some q) : q = p := by
  have hq : (k, q) ∈ acceptedEvents ls :=
    h.one_fate.mem_iff.mpr (List.mem_append_left _ (OrdMap.mem_entries.mpr hget))
  exact congrArg Prod.snd (List.inj_on_of_nodup_map h.keys_nodup hq hacc rfl)

/-- **Expire handles.**  At every point of every chain of steps the two maps of handles invert
    one another over scheduled keys, and `expire_event` gives back the event of an issued
    handle, once, exactly when it has neither been handled nor expired. -/
theorem expire_event_exact [BuildProfile] {ls : List (Label T)} {m : TransposerMetaData T}
    (h : ChainPoint ls m) : ExpireSound ls m := by
  obtain ⟨f, hreach, rfl⟩ := h.reaches
  have hsound := hreach.ordered.sound
  have hhandles := hreach.handlesSound
  generalize f.cx.metadata = m at hsound hhandles
  have hgone : (expiredEvents ls ++ handledEvents ls).Nodup :=
    (List.nodup_append.mp (hsound.one_fate.nodup_iff.mp
      (List.Nodup.of_map _ hsound.keys_nodup))).2.1
  -- the handle of an event is in the forward map exactly when the event is scheduled
  have hforward : ∀ {k p e k'}, .accepted k p (some e) ∈ ls →
      m.expireHandlesForward.get e = some k' → k' = k ∧ m.schedule.get k = some p := by
    intro k p e k' hmem hk'
    obtain ⟨q, hq⟩ := hhandles.known e k' hk'
    obtain rfl := hhandles.unique k' q k p e hq hmem
    obtain ⟨q', hq'⟩ := hhandles.scheduled k' e ((hhandles.inverse e k').mp hk')
    rw [hsound.payload (mem_acceptedEvents hmem) hq'] at hq'
    exact ⟨rfl, hq'⟩
  have hlive : ∀ {k p e}, .accepted k p (some e) ∈ ls → m.schedule.get k = some p →
      ∃ m', m.expireEvent e = .ok (.ok (k.time, p), m') := by
    intro k p e hmem hk
    have hf := hhandles.live k p p e hmem hk
    exact ⟨_, by simp only [TransposerMetaData.expireEvent, hf, hk]; rfl⟩
  constructor
  case inverse => exact hhandles.inverse
  case scheduled => exact hhandles.scheduled
  case ok_iff =>
    intro k p e hmem
    rw [← hsound.get_iff (mem_acceptedEvents hmem)]
    constructor
    · rintro ⟨m', hm'⟩
      rcases TransposerMetaData.expireEvent_cases hm' with ⟨-, hr, -⟩ | ⟨k', p', hf, -⟩
      · cases hr
      · exact (hforward hmem hf).2
    · exact hlive hmem
  case otherwise_refused =>
    intro k p e hmem hnot
    rw [← hsound.get_iff (mem_acceptedEvents hmem)] at hnot
    have hnone : m.expireHandlesForward.get e = none := by
      rw [Option.eq_none_iff_forall_ne_some]
      intro k' hk'
      exact hnot (hforward hmem hk').2
    simp only [TransposerMetaData.expireEvent, hnone]; rfl
  case removed =>
    intro k p e m' hmem hm'
    rcases TransposerMetaData.expireEvent_cases hm' with ⟨-, hr, -⟩ | ⟨k', p', hf, hk', -, rfl⟩
    · cases hr
    · obtain ⟨rfl, -⟩ := hforward hmem hf
      simp [TransposerMetaData.expireEvent]
  case never_handled =>
    intro e he hh
    exact (List.nodup_append.mp hgone).2.2 e he e hh rfl
  case expired_once => exact (List.nodup_append.mp hgone).1
  case no_panic =>
    intro e site hpanic
    unfold TransposerMetaData.expireEvent at hpanic
    cases hf : m.expireHandlesForward.get e with
    | none => simp [hf] at hpanic
    | some k =>
      -- the key of a handle is scheduled, so the event to remove is there
      obtain ⟨p, hp⟩ := hhandles.scheduled k e ((hhandles.inverse e k).mp hf)
      simp [hf, hp] at hpanic

/-- An event is scheduled with a handle, and expired with it. -/
theorem expire_event_exact_script :
    ∃ (ls : List (Label Script)) (m : TransposerMetaData Script), ExpireSound ls m ∧
      .accepted ⟨(2 : ℕ), 0, 1⟩ () (some 0) ∈ ls ∧
      expiredEvents ls = [((⟨2, 0, 1⟩ : ScheduledTime ℕ), ())] := by
  let _ : BuildProfile := debugBuild
  have hinit := Chain.poll 20 [] (Chain.newInit 0 Script.planner (0 : ℕ) ()) rfl
  have hnext := Chain.saturateTake 1 none hinit (by simp) rfl rfl
  have hdone := Chain.poll 20 [] (Chain.poll 20 [] (Chain.poll 20 [] hnext rfl) rfl) rfl
  refine ⟨_, _, expire_event_exact (.saturated hdone rfl), ?_, rfl⟩
  exact List.mem_cons_of_mem _ (List.mem_cons_of_mem _ (List.mem_cons_of_mem _
    List.mem_cons_self))

end Cozal
