import Cozal.Lib.Outcome
import Cozal.Lib.Timetable
import Cozal.Source.SourcePoll

namespace Cozal.Adapters

/-!
# The trait `Source`, seen from an adapter

An adapter knows of a source only what the trait promises.  This file has the trait, as far as
`InterruptStream` uses it, and the promise, told as a timetable that the source serves.

* `Source` — the methods `poll_events` and `advance`.
* `Source.Serves` — an invariant of the source by which every call keeps to a timetable: events
  come out one after the other, none before it is due, and a poll that is ready has put out
  everything up to its time and says when the next thing is due.
* `Source.Delivers` — and what is due can be got out of it.
-/

/-- The trait `Source`.  `Outside` is what a call of `poll_events` gets from outside: the wakers
    are passed on and never looked at, so of them nothing is kept here. -/
class Source (Src : Type) where
  Time : Type
  [timeOrder : LinearOrder Time]
  Event : Type
  Error : Type
  Outside : Type
  pollEvents : Src → Time → Outside → Outcome (TrySourcePoll Time Event Unit Error × Src)
  advance : Src → Time → Outcome Src

namespace Source

/-- The order on the times of a source. -/
instance (Src : Type) [Source Src] : LinearOrder (Time Src) := timeOrder

variable {Src : Type} [Source Src]

/-- The events of a source, with their times. -/
abbrev Events (Src : Type) [Source Src] := List (Time Src × Event Src)

/-- A poll of the events at `now` keeps to the timetable.  `inv out` is the invariant once the
    events `out` have been put out; a source is busy while it is not done with what is due. -/
inductive PollServes (D : Timetable (Time Src) (Event Src)) (inv : Events Src → Src → Prop)
    (busy : Src → Prop) (now : Time Src) (out : Events Src) :
    Outcome (TrySourcePoll (Time Src) (Event Src) Unit (Error Src) × Src) → Prop where
  | ready {next s} : inv out s → D.Covers out now → D.NextDue now next →
      PollServes D inv busy now out (.ok (.ok (.ready () next), s))
  | interrupt {t e s} : inv (out ++ [(t, e)]) s → t ≤ now →
      PollServes D inv busy now out (.ok (.ok (.interrupt t (.finalizedEvent e)), s))
  | pending {s} : inv out s → busy s → PollServes D inv busy now out (.ok (.ok .pending, s))
  | running : PollServes D inv busy now out .running

/-- The source serves the timetable from `start` on.  `inv clock out` is the invariant once
    `clock` is the last time it has been advanced to and `out` has been put out. -/
structure Serves (D : Timetable (Time Src) (Event Src)) (start : Time Src)
    (inv : Option (Time Src) → Events Src → Src → Prop) (busy : Src → Prop) : Prop where
  outputs : ∀ {clock out s}, inv clock out s → D.Outputs out
  advance : ∀ {clock out s now}, inv clock out s → start ≤ now → (∀ t ∈ clock, t ≤ now) →
    ∃ s', Source.advance s now = .ok s' ∧ inv (some now) out s'
  pollEvents : ∀ {now out s} (outside : Outside Src), inv (some now) out s →
    PollServes D (inv (some now)) busy now out (Source.pollEvents s now outside)

/-- The source puts out every event that is due, when it is given the time and the answers to do
    so. -/
def Delivers (D : Timetable (Time Src) (Event Src))
    (inv : Option (Time Src) → Events Src → Src → Prop) : Prop :=
  ∀ {now out s} {x : Time Src × Event Src}, inv (some now) out s → D.Outputs (out ++ [x]) →
    x.1 ≤ now → ∃ outside s',
      Source.pollEvents s now outside = .ok (.ok (.interrupt x.1 (.finalizedEvent x.2)), s')

end Source

end Cozal.Adapters
