import Cozal.Lib.Counted
import Cozal.Lib.OrdSet
import Cozal.Lib.Outcome
import Mathlib.Order.WithBot

namespace Cozal

/-!
# How far duplicates have advanced together

The shared source is advanced as far as its slowest duplicate.  `Advanced` counts how many
duplicates are at each time, where a duplicate that has never advanced is before every time, and
remembers the time of each duplicate at its registration.

* `Advanced.registerNewDuplicate`, `Advanced.advance` — the methods.
* `Positions` — what they stand for: the position of each duplicate, and the least of them.
* `Advanced.Tracks` — the counts are those of the positions; an advance keeps them so exactly when
  the duplicate does not pass the time it was registered at, or is still there and leaves none that
  has never advanced (`Tracks.advance_iff`).
* `combined_advancement` — in a run of such calls the aggregate is the least position.
-/

variable {Time : Type} [LinearOrder Time]

/-- The number of duplicates at each time, and the time at which each was registered. -/
structure Advanced (Time : Type) [LinearOrder Time] where
  timeCount : OrdMap (WithBot Time) ℕ
  indexMap : OrdMap ℕ (WithBot Time)

/-- A time, unless it stands for a duplicate that has never advanced. -/
def someTime : WithBot Time → Option Time
  | ⊥ => none
  | (time : Time) => some time

namespace Advanced

/-- No duplicate is registered. -/
def new : Advanced Time := ⟨.empty, .empty⟩

/-- The least time that is counted. -/
def currentAggregateAdvancement (a : Advanced Time) : WithBot Time :=
  match a.timeCount.getFirst with
  | some (time, _) => time
  | none => ⊥

/-- One more duplicate has advanced to the time. -/
def incrementTime (a : Advanced Time) (time : WithBot Time) : Advanced Time :=
  { a with
    timeCount :=
      match a.timeCount.get time with
      | some t => a.timeCount.insert time (t + 1)
      | none => a.timeCount.insert time 1 }

/-- One duplicate fewer has advanced to the time; a count that would reach zero is removed. -/
def decrementTime (a : Advanced Time) (time : WithBot Time) : Advanced Time :=
  { a with
    timeCount :=
      match a.timeCount.get time with
      | some 0 => a.timeCount.remove time
      | some 1 => a.timeCount.remove time
      | some t => a.timeCount.insert time (t - 1)
      | none => a.timeCount }

/-- A new duplicate starts where the aggregate advancement is, which is returned. -/
def registerNewDuplicate (a : Advanced Time) (index : ℕ) : WithBot Time × Advanced Time :=
  let advanced := a.currentAggregateAdvancement
  let a := a.incrementTime advanced
  (advanced, { a with indexMap := a.indexMap.insert index advanced })

/-- A duplicate advances; the time up to which the source can be advanced, if that is later than
    before.  The entry of the duplicate in `indexMap` stays what it is. -/
def advance (a : Advanced Time) (time : Time) (index : ℕ) :
    Outcome (Option Time × Advanced Time) := do
  let prevTime ← Outcome.unwrap .unregistered (a.indexMap.get index)
  if time ≤ prevTime then return (none, a)
  else
    let before := a.currentAggregateAdvancement
    let a := (a.decrementTime prevTime).incrementTime time
    let after ← Outcome.unwrap .advancement (someTime a.currentAggregateAdvancement)
    match someTime before with
    | none => return (some after, a)
    | some before => return (if before < after then some after else none, a)

end Advanced

/-! ### Positions -/

/-- Where a duplicate is, and where it was registered. -/
structure Position (Time : Type) [LinearOrder Time] where
  registered : WithBot Time
  current : WithBot Time
  le : registered ≤ current

/-- The position becomes the largest time that has been advanced to. -/
def Position.advance (position : Position Time) (time : Time) : Position Time :=
  ⟨position.registered, max position.current time, le_max_of_le_left position.le⟩

/-- The position of each registered duplicate. -/
abbrev Positions (Time : Type) [LinearOrder Time] := OrdMap ℕ (Position Time)

namespace Positions

/-- Where the duplicates are, in any order. -/
def currents (p : Positions Time) : List (WithBot Time) := p.values.map Position.current

/-- The least position, which is before every time when there is no duplicate. -/
def aggregate (p : Positions Time) : WithBot Time := (OrdSet.first p.currents.toFinset).getD ⊥

/-- A new duplicate starts at the aggregate of the others, having passed everything before it. -/
def register (p : Positions Time) (index : ℕ) : Positions Time :=
  p.insert index ⟨p.aggregate, p.aggregate, le_rfl⟩

/-- A duplicate that is registered moves on to the time, unless it is there already. -/
def advance (p : Positions Time) (time : Time) (index : ℕ) : Positions Time :=
  match p.get index with
  | some position => p.insert index (position.advance time)
  | none => p

/-- The duplicate does not pass the time it was registered at, or it is still there and every other
    one has advanced. -/
def Permits (p : Positions Time) (time : Time) (index : ℕ) : Prop :=
  ∀ position, p.get index = some position → time ≤ position.registered ∨
    position.current = position.registered ∧
      ∀ other q, other ≠ index → p.get other = some q → q.current ≠ ⊥

variable {p : Positions Time} {index : ℕ} {position : Position Time} {m : WithBot Time}

/-- The current positions are those of the duplicates that are registered. -/
theorem mem_currents : m ∈ p.currents ↔ ∃ index q, p.get index = some q ∧ q.current = m := by
  rw [currents, List.mem_map]
  constructor
  · rintro ⟨q, hmem, rfl⟩
    obtain ⟨index, hget⟩ := OrdMap.mem_values.mp hmem
    exact ⟨index, q, hget, rfl⟩
  · rintro ⟨index, q, hget, rfl⟩
    exact ⟨q, OrdMap.mem_values.mpr ⟨index, hget⟩, rfl⟩

/-- The aggregate is the position that is least. -/
theorem aggregate_eq (hmem : m ∈ p.currents) (hle : ∀ q ∈ p.currents, m ≤ q) :
    p.aggregate = m := by
  have hmin : OrdSet.first p.currents.toFinset = some m := by
    rw [OrdSet.first_eq_some]
    exact ⟨List.mem_toFinset.mpr hmem, fun q hq => hle q (List.mem_toFinset.mp hq)⟩
  rw [aggregate, hmin]
  rfl

/-- No duplicate has a position, and neither have all of them together. -/
theorem aggregate_of_nil (h : p.currents = []) : p.aggregate = ⊥ := by
  rw [aggregate, h]
  rfl

/-- A duplicate at a position adds it to those of the others. -/
theorem currents_insert (p : Positions Time) (index : ℕ) (position : Position Time) :
    (currents (p.insert index position)).Perm (position.current :: currents (p.remove index)) :=
  ((OrdMap.entries_insert_perm_remove p index position).map Prod.snd).map Position.current

/-- The positions are that of one duplicate and those of the others. -/
theorem currents_get (h : p.get index = some position) :
    p.currents.Perm (position.current :: currents (p.remove index)) :=
  ((OrdMap.entries_remove_perm h).map Prod.snd).map Position.current

/-- The order in which the positions are listed does not matter for the aggregate. -/
theorem aggregate_congr {p' : Positions Time} (h : p.currents.Perm p'.currents) :
    p.aggregate = p'.aggregate := by
  rw [aggregate, aggregate, List.toFinset_eq_of_perm _ _ h]

/-- Some duplicate is at the aggregate, and no duplicate is before it. -/
theorem aggregate_least (h : p.currents ≠ []) :
    p.aggregate ∈ p.currents ∧ ∀ q ∈ p.currents, p.aggregate ≤ q := by
  obtain ⟨m, hm⟩ := List.exists_mem_of_ne_nil _ h
  obtain ⟨least, hleast, hmin⟩ := Finset.exists_min_image p.currents.toFinset id
    ⟨m, List.mem_toFinset.mpr hm⟩
  have hmem : least ∈ p.currents := List.mem_toFinset.mp hleast
  have hle : ∀ q ∈ p.currents, least ≤ q := fun q hq => hmin q (List.mem_toFinset.mpr hq)
  rw [aggregate_eq hmem hle]
  exact ⟨hmem, hle⟩

/-- The aggregate is not later than the position of any duplicate. -/
theorem aggregate_le (hmem : m ∈ p.currents) : p.aggregate ≤ m :=
  (aggregate_least (List.ne_nil_of_mem hmem)).2 m hmem

/-- A fresh duplicate is at the aggregate. -/
theorem currents_register (hfresh : p.get index = none) :
    (p.register index).currents.Perm (p.aggregate :: p.currents) := by
  have hrest : currents (p.remove index) = p.currents := by
    rw [currents, OrdMap.values, OrdMap.entries_remove_of_none hfresh]
    rfl
  exact hrest ▸ currents_insert p index ⟨p.aggregate, p.aggregate, le_rfl⟩

/-- So the aggregate stays what it is. -/
theorem aggregate_register (hfresh : p.get index = none) :
    (p.register index).aggregate = p.aggregate := by
  have hperm := currents_register hfresh
  refine aggregate_eq (hperm.mem_iff.mpr List.mem_cons_self) ?_
  intro q hq
  rcases List.mem_cons.mp (hperm.mem_iff.mp hq) with rfl | hmem
  · exact le_rfl
  · exact aggregate_le hmem

/-- Only the position of the duplicate that advances changes. -/
theorem currents_advance (h : p.get index = some position) (time : Time) :
    (p.advance time index).currents.Perm
      (max position.current time :: currents (p.remove index)) := by
  rw [advance, h]
  exact currents_insert p index (position.advance time)

/-- The least position does not decrease. -/
theorem aggregate_le_advance (h : p.get index = some position) (time : Time) :
    p.aggregate ≤ (p.advance time index).aggregate := by
  have hold := currents_get h
  have hnew := currents_advance h time
  have hmem := (aggregate_least (p := p.advance time index)
    (fun hnil => by simp [hnil] at hnew)).1
  rcases List.mem_cons.mp (hnew.mem_iff.mp hmem) with heq | hrest
  · rw [heq]
    exact le_max_of_le_left (aggregate_le (hold.mem_iff.mpr List.mem_cons_self))
  · exact aggregate_le (hold.mem_iff.mpr (List.mem_cons_of_mem _ hrest))

end Positions

/-! ### The counts are those of the positions -/

namespace Advanced

variable {a : Advanced Time} {p : Positions Time} {index : ℕ} {time : Time}

/-- The counts are those of the positions, and the times in `indexMap` those of the
    registrations. -/
structure Tracks (a : Advanced Time) (p : Positions Time) : Prop where
  counts : Counts a.timeCount p.currents
  registered : ∀ index, a.indexMap.get index = (p.get index).map Position.registered

/-- Counting a time up is adding it to the list that is counted. -/
theorem incrementTime_counts {l : List (WithBot Time)} (h : Counts a.timeCount l)
    (k : WithBot Time) : Counts (a.incrementTime k).timeCount (k :: l) := by
  have hsucc := h.succ (k := k)
  unfold incrementTime
  cases hget : a.timeCount.get k with
  | none => simpa [h.get_eq_none.mp hget] using hsucc
  | some n => simpa [(h.get_eq_some hget).1] using hsucc

/-- Counting a time down is taking it out of the list that is counted. -/
theorem decrementTime_counts {l : List (WithBot Time)} {k : WithBot Time}
    (h : Counts a.timeCount (k :: l)) : Counts (a.decrementTime k).timeCount l := by
  have hget : a.timeCount.get k = some (l.count k + 1) := by
    rw [h k, List.count_cons_self, if_neg (Nat.succ_ne_zero _)]
  unfold decrementTime
  rw [hget]
  cases hcount : l.count k with
  | zero => exact h.erase hcount
  | succ n => simpa [hcount] using h.pred (by rw [hcount]; exact Nat.succ_ne_zero n)

/-- Counting a time up leaves the counts of the others alone. -/
theorem incrementTime_get {k k' : WithBot Time} (h : k' ≠ k) :
    (a.incrementTime k).timeCount.get k' = a.timeCount.get k' := by
  unfold incrementTime
  cases a.timeCount.get k with
  | none => rw [OrdMap.get_insert, if_neg h]
  | some n => rw [OrdMap.get_insert, if_neg h]

/-- Counting a time up starts from zero for a time that has no count. -/
theorem incrementTime_get_self (a : Advanced Time) (k : WithBot Time) :
    (a.incrementTime k).timeCount.get k = some ((a.timeCount.get k).getD 0 + 1) := by
  unfold incrementTime
  cases a.timeCount.get k with
  | none => rw [OrdMap.get_insert, if_pos rfl]; rfl
  | some n => rw [OrdMap.get_insert, if_pos rfl]; rfl

/-- Counting a time down leaves the counts of the others alone. -/
theorem decrementTime_get {k k' : WithBot Time} (h : k' ≠ k) :
    (a.decrementTime k).timeCount.get k' = a.timeCount.get k' := by
  unfold decrementTime
  split
  · rw [OrdMap.get_remove, if_neg h]
  · rw [OrdMap.get_remove, if_neg h]
  · rw [OrdMap.get_insert, if_neg h]
  · rfl

/-- The time that `advance` returns is later than the least that was counted before. -/
theorem advance_ok {prev : WithBot Time} {after : Time} (hget : a.indexMap.get index = some prev)
    (hpast : ¬ time ≤ prev)
    (hafter : ((a.decrementTime prev).incrementTime time).currentAggregateAdvancement = after) :
    a.advance time index =
      .ok (if a.currentAggregateAdvancement < after then some after else none,
        (a.decrementTime prev).incrementTime time) := by
  unfold advance
  simp only [hget, Outcome.unwrap_some, Outcome.ok_bind, if_neg hpast, hafter, someTime]
  cases hbefore : a.currentAggregateAdvancement with
  | bot => simp
  | coe before => simp [WithBot.coe_lt_coe]

/-- A duplicate that passes the time it was registered at is counted where it is, and no longer at
    that time; an advance only returns when every duplicate has advanced. -/
theorem advance_cases {prev : WithBot Time} {r : Option Time} {a' : Advanced Time}
    (hget : a.indexMap.get index = some prev) (hpast : ¬ time ≤ prev)
    (hadvance : a.advance time index = .ok (r, a')) :
    a' = (a.decrementTime prev).incrementTime time ∧ a'.currentAggregateAdvancement ≠ ⊥ := by
  unfold advance at hadvance
  simp only [hget, Outcome.unwrap_some, Outcome.ok_bind, if_neg hpast] at hadvance
  obtain ⟨after, hafter, hreturn⟩ := Outcome.bind_eq_ok.mp hadvance
  have hsome := Outcome.unwrap_eq_ok.mp hafter
  have ha' : a' = (a.decrementTime prev).incrementTime time := by
    split at hreturn <;> cases hreturn <;> rfl
  refine ⟨ha', ?_⟩
  rw [ha']
  intro hbot
  rw [hbot] at hsome
  cases hsome

namespace Tracks

/-- At first nothing is counted, and no duplicate has a position. -/
theorem new : Tracks (.new : Advanced Time) .empty := ⟨Counts.empty, fun _ => rfl⟩

/-- The least time that is counted is the least position. -/
theorem current (h : Tracks a p) : a.currentAggregateAdvancement = p.aggregate := by
  unfold currentAggregateAdvancement
  cases hfirst : a.timeCount.getFirst with
  | none => rw [Positions.aggregate_of_nil (h.counts.getFirst_eq_none hfirst)]
  | some e =>
    obtain ⟨hmem, hle⟩ := h.counts.getFirst_eq_some hfirst
    exact (Positions.aggregate_eq hmem hle).symm

/-- A fresh duplicate is counted at the aggregate. -/
theorem register (h : Tracks a p) (hfresh : p.get index = none) :
    Tracks (a.registerNewDuplicate index).2 (p.register index) := by
  unfold registerNewDuplicate
  rw [h.current]
  constructor
  · exact (incrementTime_counts h.counts p.aggregate).perm
      (Positions.currents_register hfresh).symm
  · intro other
    have hget := h.registered other
    by_cases hother : other = index
    · subst hother
      simp [Positions.register]
    · simpa [Positions.register, incrementTime, hother] using hget

/-- A duplicate that does not pass the time it was registered at stays where it is, and that is
    what `advance` takes it to do. -/
theorem advance_behind (h : Tracks a p) {position : Position Time}
    (hget : p.get index = some position) (hle : time ≤ position.registered) :
    a.advance time index = .ok (none, a) ∧ Tracks a (p.advance time index) ∧
      (p.advance time index).aggregate = p.aggregate := by
  have hmax : max position.current ↑time = position.current :=
    max_eq_left (hle.trans position.le)
  have hperm : (p.advance time index).currents.Perm p.currents := by
    have hnew := Positions.currents_advance hget time
    rw [hmax] at hnew
    exact hnew.trans (Positions.currents_get hget).symm
  refine ⟨?_, ⟨h.counts.perm hperm.symm, ?_⟩, Positions.aggregate_congr hperm⟩
  · unfold Advanced.advance
    rw [h.registered, hget]
    simp [hle]
  · intro other
    rw [h.registered, Positions.advance, hget, OrdMap.get_insert]
    split
    · rename_i heq
      rw [heq, hget]
      rfl
    · rfl

/-- A duplicate that is where it was registered moves to the time, in the counts too. -/
theorem advance_moves (h : Tracks a p) {position : Position Time}
    (hget : p.get index = some position) (hstill : position.current = position.registered)
    (hpast : ¬ time ≤ position.registered) :
    Tracks ((a.decrementTime position.registered).incrementTime time) (p.advance time index) := by
  have hmax : max position.current ↑time = ↑time := by
    rw [hstill]
    exact max_eq_right (le_of_not_ge hpast)
  constructor
  · have hcounts : Counts a.timeCount
        (position.registered :: Positions.currents (p.remove index)) :=
      h.counts.perm (hstill ▸ Positions.currents_get hget)
    have hnew := Positions.currents_advance hget time
    rw [hmax] at hnew
    exact (incrementTime_counts (decrementTime_counts hcounts) time).perm hnew.symm
  · intro other
    have hregistered := h.registered other
    rw [Positions.advance, hget, OrdMap.get_insert]
    split
    · rename_i heq
      rw [heq, hget] at hregistered
      rw [heq]
      exact hregistered
    · exact hregistered

/-- What a permitted `advance` returns, and that the counts stay those of the positions. -/
theorem advance (h : Tracks a p) {position : Position Time}
    (hget : p.get index = some position) (hpermits : p.Permits time index) :
    ∃ r a', a.advance time index = .ok (r, a') ∧ Tracks a' (p.advance time index) ∧
      ∀ t : Time, r = some t ↔ p.aggregate < (p.advance time index).aggregate ∧
        (p.advance time index).aggregate = t := by
  by_cases hle : time ≤ position.registered
  · obtain ⟨hadvance, htracks, haggregate⟩ := h.advance_behind hget hle
    refine ⟨none, a, hadvance, htracks, ?_⟩
    simp [haggregate]
  · obtain ⟨hstill, hothers⟩ := (hpermits position hget).resolve_left hle
    have htracks := h.advance_moves hget hstill hle
    -- no duplicate is left that has never advanced
    have hsome : (p.advance time index).aggregate ≠ ⊥ := by
      have hperm := Positions.currents_advance hget time
      have hmem := (Positions.aggregate_least (p := p.advance time index)
        (fun hnil => by simp [hnil] at hperm)).1
      rcases List.mem_cons.mp (hperm.mem_iff.mp hmem) with heq | hrest
      · rw [heq, hstill]
        exact ne_bot_of_gt (lt_max_of_lt_right (WithBot.bot_lt_coe time))
      · obtain ⟨other, q, hother, hq⟩ := Positions.mem_currents.mp hrest
        obtain ⟨hne, hother⟩ := OrdMap.get_remove_eq_some.mp hother
        rw [← hq]
        exact hothers other q hne hother
    obtain ⟨after, hafter⟩ := WithBot.ne_bot_iff_exists.mp hsome
    have hadvance := advance_ok (by rw [h.registered, hget]; rfl) hle
      (htracks.current.trans hafter.symm)
    refine ⟨_, _, hadvance, htracks, ?_⟩
    intro t
    rw [h.current, ← hafter, WithBot.coe_inj]
    split
    · rename_i hlt
      simp [hlt]
    · rename_i hlt
      simp [hlt]

/-- A duplicate that is elsewhere than where it was registered is counted wrongly once it passes
    that time. -/
theorem still_of_moved (h : Tracks a p) {position : Position Time}
    (hget : p.get index = some position) (hpast : ¬ time ≤ position.registered)
    (h' : Tracks ((a.decrementTime position.registered).incrementTime time)
      (p.advance time index)) : position.current = position.registered := by
  by_contra hmoved
  have hold := h.counts.perm (Positions.currents_get hget)
  have hnew := h'.counts.perm (Positions.currents_advance hget time)
  have hne : (time : WithBot Time) ≠ position.registered := by
    intro heq
    exact hpast heq.le
  by_cases hle : time ≤ position.current
  · -- the time is counted once more, though no duplicate has come to it
    have htime := hnew time
    rw [max_eq_left hle, ← hold time, incrementTime_get_self, decrementTime_get hne] at htime
    cases hcount : a.timeCount.get time with
    | none => rw [hcount] at htime; cases htime
    | some n =>
      rw [hcount, Option.getD_some, Option.some.injEq] at htime
      omega
  · -- the position of the duplicate is counted as before, though the duplicate has left it
    have hleft : position.current ≠ time := fun heq => hle heq.ge
    have hcurrent := hnew position.current
    rw [max_eq_right (le_of_not_ge hle), incrementTime_get hleft, decrementTime_get hmoved,
      hold position.current, List.count_cons_self, List.count_cons_of_ne (Ne.symm hleft),
      if_neg (Nat.succ_ne_zero _)] at hcurrent
    split at hcurrent
    · cases hcurrent
    · rw [Option.some.injEq] at hcurrent
      omega

/-- An advance keeps the counts those of the positions exactly when it is permitted. -/
theorem advance_iff (h : Tracks a p) {position : Position Time}
    (hget : p.get index = some position) :
    (∃ r a', a.advance time index = .ok (r, a') ∧ Tracks a' (p.advance time index)) ↔
      p.Permits time index := by
  constructor
  · rintro ⟨r, a', hadvance, htracks⟩ position' hget'
    cases hget.symm.trans hget'
    by_cases hle : time ≤ position.registered
    · exact .inl hle
    obtain ⟨rfl, hsome⟩ := advance_cases (by rw [h.registered, hget]; rfl) hle hadvance
    refine .inr ⟨h.still_of_moved hget hle htracks, ?_⟩
    rintro other q hother hq hbot
    rw [htracks.current] at hsome
    have hmem : ⊥ ∈ (p.advance time index).currents := by
      apply (Positions.currents_advance hget time).mem_iff.mpr
      apply List.mem_cons_of_mem
      exact Positions.mem_currents.mpr ⟨other, q, OrdMap.get_remove_eq_some.mpr ⟨hother, hq⟩, hbot⟩
    exact hsome (le_bot_iff.mp (Positions.aggregate_le hmem))
  · intro hpermits
    obtain ⟨r, a', hadvance, htracks, -⟩ := h.advance hget hpermits
    exact ⟨r, a', hadvance, htracks⟩

end Tracks

end Advanced

/-! ### The shared source -/

/-- What is advanced together: the counts, and the times the source has been advanced to. -/
structure Advancing (Time : Type) [LinearOrder Time] where
  advanced : Advanced Time
  source : List Time

namespace Advancing

/-- Nothing is registered, and the source has not been advanced. -/
def new : Advancing Time := ⟨.new, []⟩

/-- A duplicate is registered; the source is not told. -/
def register (o : Advancing Time) (index : ℕ) : Advancing Time :=
  { o with advanced := (o.advanced.registerNewDuplicate index).2 }

/-- The source is advanced to the time that `Advanced.advance` returns. -/
def advance (o : Advancing Time) (time : Time) (index : ℕ) : Outcome (Advancing Time) := do
  let (t, advanced) ← o.advanced.advance time index
  match t with
  | some t => return ⟨advanced, o.source ++ [t]⟩
  | none => return ⟨advanced, o.source⟩

/-- The states that registrations of fresh duplicates and advances of registered ones lead to, when
    each advance meets the condition, with the positions of the duplicates. -/
inductive Reached (meets : Positions Time → Time → ℕ → Prop) :
    Advancing Time → Positions Time → Prop
  | new : Reached meets .new .empty
  | register {o : Advancing Time} {p : Positions Time} {index : ℕ} (h : Reached meets o p)
      (hfresh : p.get index = none) : Reached meets (o.register index) (p.register index)
  | advance {o o' : Advancing Time} {p : Positions Time} {position : Position Time} {time : Time}
      {index : ℕ} (h : Reached meets o p) (hget : p.get index = some position)
      (hmeets : meets p time index) (hadvance : o.advance time index = .ok o') :
      Reached meets o' (p.advance time index)

/-- The least position is the aggregate, and the source has been advanced to it.  An advance that
    meets the condition returns, and it returns the new least position when that increases. -/
def Combined (meets : Positions Time → Time → ℕ → Prop) (o : Advancing Time)
    (p : Positions Time) : Prop :=
  o.advanced.currentAggregateAdvancement = p.aggregate ∧
  o.source.getLast? = someTime p.aggregate ∧
  ∀ index position time, p.get index = some position → meets p time index →
    ∃ r advanced, o.advanced.advance time index = .ok (r, advanced) ∧
      ∀ t : Time, r = some t ↔ p.aggregate < (p.advance time index).aggregate ∧
        (p.advance time index).aggregate = t

/-- The counts are those of the positions in every run of permitted advances. -/
theorem Reached.tracks {o : Advancing Time} {p : Positions Time}
    (h : Reached Positions.Permits o p) :
    o.advanced.Tracks p ∧ o.source.getLast? = someTime p.aggregate := by
  induction h with
  | new => exact ⟨Advanced.Tracks.new, rfl⟩
  | register h hfresh ih =>
    refine ⟨ih.1.register hfresh, ?_⟩
    rw [Positions.aggregate_register hfresh]
    exact ih.2
  | @advance o o' p position time index h hget hpermits hadvance ih =>
    obtain ⟨r, a', hreturns, htracks, hr⟩ := ih.1.advance hget hpermits
    unfold Advancing.advance at hadvance
    rw [hreturns] at hadvance
    cases r with
    | some t =>
      cases hadvance
      refine ⟨htracks, ?_⟩
      rw [((hr t).mp rfl).2, List.getLast?_concat]
      rfl
    | none =>
      cases hadvance
      refine ⟨htracks, ?_⟩
      -- an aggregate that had increased would have been returned
      have hsame : (p.advance time index).aggregate = p.aggregate := by
        by_contra hne
        have hlt := lt_of_le_of_ne (Positions.aggregate_le_advance hget time) (Ne.symm hne)
        obtain ⟨t, ht⟩ := WithBot.ne_bot_iff_exists.mp (ne_bot_of_gt hlt)
        cases (hr t).mpr ⟨hlt, ht.symm⟩
      rw [hsame]
      exact ih.2

end Advancing

/-- In every run in which each advance either does not pass the time at which its duplicate was
    registered, or is the first of the duplicate to do so and leaves none that has never advanced,
    the duplicates advance the source as far as the slowest of them. -/
theorem combined_advancement {o : Advancing Time} {p : Positions Time}
    (h : o.Reached Positions.Permits p) : o.Combined Positions.Permits p := by
  obtain ⟨htracks, hsource⟩ := h.tracks
  refine ⟨htracks.current, hsource, ?_⟩
  intro index position time hget hpermits
  obtain ⟨r, a', hreturns, -, hr⟩ := htracks.advance hget hpermits
  exact ⟨r, a', hreturns, hr⟩

/-- The only duplicate has advanced to 5. -/
def onlyDuplicate : Advancing ℕ :=
  ⟨⟨OrdMap.insert .empty (.some 5) 1, OrdMap.insert .empty 0 ⊥⟩, [5]⟩

/-- Its position. -/
def onlyPosition : Positions ℕ := (Positions.register .empty 0).advance 5 0

/-- The state is reached when the condition permits the advance to 5. -/
theorem onlyDuplicate_reached {meets : Positions ℕ → ℕ → ℕ → Prop}
    (h : meets (Positions.register .empty 0) 5 0) : onlyDuplicate.Reached meets onlyPosition :=
  .advance (.register .new rfl) rfl h rfl

/-- The second of two duplicates advances, and the source is told what both have passed. -/
theorem combined_advancement_second : ∃ r advanced,
    (onlyDuplicate.register 1).advanced.advance 7 1 = .ok (r, advanced) ∧
    ∀ t : ℕ, r = some t ↔
      (onlyPosition.register 1).aggregate < ((onlyPosition.register 1).advance 7 1).aggregate ∧
        ((onlyPosition.register 1).advance 7 1).aggregate = .some t := by
  refine (combined_advancement (.register (onlyDuplicate_reached ?_) rfl)).2.2 1
    ⟨.some 5, .some 5, le_rfl⟩ 7 rfl ?_
  · rintro position hget
    cases hget
    refine .inr ⟨rfl, ?_⟩
    intro other q hother hq
    simp [Positions.register, hother] at hq
  · rintro position hget
    cases hget
    refine .inr ⟨rfl, ?_⟩
    intro other q hother hq
    rw [Positions.register, OrdMap.get_insert, if_neg hother] at hq
    have hall : ∀ m ∈ onlyPosition.currents, m ≠ ⊥ := by decide
    exact hall q.current (Positions.mem_currents.mpr ⟨other, q, hq, rfl⟩)

/-- A duplicate that advances for a second time is taken to be where it was registered, so it is
    counted twice. -/
theorem combined_advancement_fails : ¬ ∀ (o : Advancing ℕ) (p : Positions ℕ),
    o.Reached (fun _ _ _ => True) p → o.Combined (fun _ _ _ => True) p := by
  intro h
  obtain ⟨-, -, hadvance⟩ := h _ _ (onlyDuplicate_reached trivial)
  obtain ⟨r, advanced, hreturns, hr⟩ := hadvance 0 ⟨⊥, .some 5, bot_le⟩ 7 rfl trivial
  cases hreturns
  have h7 : (onlyPosition.advance 7 0).aggregate = .some 7 := rfl
  cases (hr 7).mpr ⟨by decide, h7⟩

end Cozal
