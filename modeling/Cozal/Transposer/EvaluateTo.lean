import Cozal.Lib.Grouped

namespace Cozal

/-!
# The inputs of `evaluate_to`

`evaluate_to` runs a transposer on a list of inputs, and the first thing it does is to sort them and
to collect those of one time into a group, up to the time until which it evaluates.

* `collectEvents` — the loop that does so.
* `collectLoop_eq` — it adds one input after the other to the groups.
* `collectEvents_eq` — so it groups the inputs until then.
* `evaluate_to_collects` — what the groups are.
-/

variable {Time Input : Type} [LinearOrder Time]

/-- After the loop, or where it breaks off: the last group is there unless nothing was collected. -/
def collectLast (currentTime : Time) (e : List Input) (collected : List (Time × List Input)) :
    List (Time × List Input) :=
  if e.isEmpty then collected else collected ++ [(currentTime, e)]

/-- The loop over the sorted inputs. -/
def collectLoop (untilTime : Time) :
    List (Time × Input) → Time → List Input → List (Time × List Input) →
      List (Time × List Input)
  | [], currentTime, e, collected => collectLast currentTime e collected
  | (time, input) :: events, currentTime, e, collected =>
      if time > untilTime then collectLast currentTime e collected
      else if time > currentTime then
        collectLoop untilTime events time [input] (collected ++ [(currentTime, e)])
      else collectLoop untilTime events currentTime (e ++ [input]) collected

/-- The groups of inputs that `evaluate_to` starts with. -/
def collectEvents (untilTime : Time) (events : List (Time × Input)) : List (Time × List Input) :=
  match sortByKey events with
  | [] => []
  | first :: rest => collectLoop untilTime (first :: rest) first.1 [] []

variable {untilTime currentTime : Time} {e : List Input} {collected : List (Time × List Input)}
  {events : List (Time × Input)} {m : OrdMap Time (List Input)}

/-- **The loop adds one input after the other**, as far as they are not after the end: its last
    group is the one that it is collecting. -/
theorem collectLoop_eq (hm : m.entries = collected ++ [(currentTime, e)]) (he : e ≠ [])
    (hle : ∀ x ∈ events, currentTime ≤ x.1) (hsorted : events.Pairwise fun a b => a.1 ≤ b.1) :
    collectLoop untilTime events currentTime e collected
      = ((events.takeWhile fun x => decide (x.1 ≤ untilTime)).foldl pushValue m).entries := by
  have hlast : collectLast currentTime e collected = m.entries := by
    rw [collectLast, if_neg (by simpa using he), hm]
  induction events generalizing currentTime e collected m with
  | nil => exact hlast
  | cons x events ih =>
    obtain ⟨time, input⟩ := x
    obtain ⟨hx, hsorted⟩ := List.pairwise_cons.mp hsorted
    have htime : currentTime ≤ time := hle _ List.mem_cons_self
    unfold collectLoop
    by_cases hend : time > untilTime
    · rw [if_pos hend, List.takeWhile_cons_of_neg (by simpa using hend)]
      exact hlast
    · rw [if_neg hend, List.takeWhile_cons_of_pos (by simpa using hend), List.foldl_cons]
      by_cases hnext : time > currentTime
      · -- a new group starts
        rw [if_pos hnext]
        have hlater : ∀ g ∈ m.entries, g.1 < time := by
          have hkeys := m.sorted
          rw [hm, List.pairwise_append] at hkeys
          intro g hg
          rw [hm, List.mem_append, List.mem_singleton] at hg
          rcases hg with hg | rfl
          · exact (hkeys.2.2 g hg _ List.mem_cons_self).trans hnext
          · exact hnext
        have hpush := pushValue_later hlater input
        rw [hm] at hpush
        refine ih hpush (by simp) hx hsorted ?_
        rw [collectLast, hpush]
        rfl
      · rw [if_neg hnext]
        obtain rfl : time = currentTime := le_antisymm (not_lt.mp hnext) htime
        have hpush := pushValue_last hm input
        refine ih hpush (by simp) hx hsorted ?_
        rw [collectLast, if_neg (by simp), hpush]

/-- **The inputs until the end are grouped**, whatever order they come in. -/
theorem collectEvents_eq (untilTime : Time) (events : List (Time × Input)) :
    collectEvents untilTime events = ((events.filter fun x => decide (x.1 ≤ untilTime)).foldl
      pushValue (.empty : OrdMap Time (List Input))).entries := by
  let inTime := events.filter fun x => decide (x.1 ≤ untilTime)
  have hgroups : (inTime.foldl pushValue (.empty : OrdMap Time (List Input)))
      = (sortByKey inTime).foldl pushValue .empty :=
    (Groups.foldl inTime).unique (Groups.foldl (sortByKey inTime)) fun k =>
      (valuesAt_sortByKey inTime k).symm
  show _ = (inTime.foldl pushValue (.empty : OrdMap Time (List Input))).entries
  rw [hgroups, ← takeWhile_sortByKey]
  unfold collectEvents
  have hsorted := sortByKey_sorted events
  cases hsort : sortByKey events with
  | nil => rfl
  | cons first rest =>
    rw [hsort] at hsorted
    obtain ⟨hfirst, hrest⟩ := List.pairwise_cons.mp hsorted
    show collectLoop untilTime (first :: rest) first.1 [] [] = _
    unfold collectLoop
    by_cases hend : first.1 > untilTime
    · rw [if_pos hend, List.takeWhile_cons_of_neg (by simpa using hend)]
      rfl
    · -- the first input starts the first group
      rw [if_neg hend, if_neg (lt_irrefl _), List.takeWhile_cons_of_pos (by simpa using hend),
        List.foldl_cons]
      exact collectLoop_eq rfl (by simp) hfirst hrest

/-- The times of the groups increase, none is empty, and one after the other they are the inputs
    until the end, sorted by time, those of one time in the order that they were given in. -/
structure Collected (untilTime : Time) (events : List (Time × Input))
    (groups : List (Time × List Input)) : Prop where
  increasing : groups.Pairwise fun g g' => g.1 < g'.1
  nonempty : ∀ g ∈ groups, g.2 ≠ []
  inOrder : ungroup groups = sortByKey (events.filter fun x => decide (x.1 ≤ untilTime))

/-- **No input is lost, repeated or reordered** when `evaluate_to` collects them. -/
theorem evaluate_to_collects (untilTime : Time) (events : List (Time × Input)) :
    Collected untilTime events (collectEvents untilTime events) := by
  have hgroups := Groups.foldl (events.filter fun x => decide (x.1 ≤ untilTime))
  rw [collectEvents_eq]
  exact ⟨OrdMap.sorted _, fun g hg => hgroups.ne_nil hg, hgroups.flatten⟩

end Cozal
