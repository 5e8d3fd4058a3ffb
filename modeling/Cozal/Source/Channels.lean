import Cozal.Transposer.Step
import Cozal.Util.StackWaker

namespace Cozal

open Transposer

/-!
# The channels of a source

A source is polled on many caller channels.  `ChannelStatuses` remembers what each of them waits
for: the step that is run for the first time, a step that is run again, or an interpolation.

* `ChannelStatuses.getChannelStatus` — what a channel waits for.
* `ChannelStatuses.startInterpolation`, `ChannelStatuses.startRepeatStep`,
  `ChannelStatuses.startOriginalStep`, `ChannelStatuses.abandon` — a channel starts and stops
  to wait.
* `StackWaker.register` — many channels wait for one step with one waker.
* `StackWaker.KeysOf` — the keys kept here are those of the wakers on the stack.

A handle of the source on an entry of a map is the key of the entry here.
-/

variable {T : Type} [Transposer T]

/-! ### Wakers -/

/-- A `Weak<StackWaker>`: the keys of the wakers on the stack, or nothing once it is dropped. -/
abbrev StackWaker := Option (List ℕ)

/-- What the holder of a stack waker does to it. -/
inductive StackWakerEvent where
  | wake | drop
deriving DecidableEq, Repr

namespace StackWaker

/-- A stack waker that cannot be upgraded. -/
def newEmpty : StackWaker := none

/-- Put a waker on the stack, which is made when there is none; whether the caller is to poll
    with the stack waker, because nobody else waits on it. -/
def register (weak : StackWaker) (key : ℕ) : Bool × StackWaker :=
  let wakers := weak.getD []
  (wakers.isEmpty, some (if key ∈ wakers then wakers else key :: wakers))

/-- Waking takes all wakers off the stack; a dropped stack cannot be upgraded any more. -/
def after (weak : StackWaker) : StackWakerEvent → StackWaker
  | .wake => weak.map fun _ => []
  | .drop => none

/-- The keys are those under which wakers are registered. -/
inductive KeysOf : Util.StackWaker → StackWaker → Prop
  | dropped : KeysOf none none
  | alive {wakers : OrdMap ℕ Util.Waker} {keys : List ℕ}
      (h : ∀ key, key ∈ keys ↔ ∃ waker, wakers.get key = some waker) :
      KeysOf (some wakers) (some keys)

namespace KeysOf

variable {weak weak' : Util.StackWaker} {keys : StackWaker}

/-- There is no key exactly when there is no waker. -/
theorem isEmpty (h : KeysOf weak keys) : weak.isEmpty = (keys.getD []).isEmpty := by
  cases h with
  | dropped => rfl
  | @alive wakers keys h =>
    have hiff : wakers.entries = [] ↔ keys = [] := by
      simp only [List.eq_nil_iff_forall_not_mem]
      constructor
      · intro hnone key hkey
        obtain ⟨waker, hget⟩ := (h key).mp hkey
        exact hnone (key, waker) (OrdMap.mem_entries.mpr hget)
      · rintro hnone ⟨key, waker⟩ hmem
        exact hnone key ((h key).mpr ⟨waker, OrdMap.mem_entries.mp hmem⟩)
    exact Bool.eq_iff_iff.mpr (List.isEmpty_iff.trans (hiff.trans List.isEmpty_iff.symm))

/-- Registering adds the key, and gives a waker away for the first. -/
theorem register (h : KeysOf weak keys) (key : ℕ) (waker : Util.Waker) :
    (weak.register key waker).1 = (keys.register key).1 ∧
      KeysOf (weak.register key waker).2 (keys.register key).2 := by
  refine ⟨h.isEmpty, .alive ?_⟩
  have hkeys : ∀ key, key ∈ keys.getD [] ↔ ∃ waker, (weak.getD .empty).get key = some waker := by
    cases h with
    | dropped => simp
    | alive h => exact h
  intro other
  rw [OrdMap.get_insert]
  by_cases hother : other = key
  · subst hother
    simp only [if_true, Option.some.injEq, exists_eq', iff_true]
    split
    · assumption
    · exact List.mem_cons_self
  · rw [if_neg hother, ← hkeys]
    split
    · rfl
    · exact List.mem_cons.trans (or_iff_right hother)

/-- Waking takes all keys away. -/
theorem wake (h : KeysOf weak keys) {woken : List Util.Waker}
    (hwakes : Util.StackWaker.Wakes weak woken weak') : KeysOf weak' (keys.after .wake) := by
  cases hwakes
  cases h
  exact .alive (by simp)

end KeysOf

end StackWaker

/-! ### What a channel waits for -/

/-- What a channel waits for: the last step, a step that is run again, or an interpolation. -/
inductive CallerChannelBlockedReasonInner (T : Type) [Transposer T] where
  | originalStep
  | repeatStep (stepId : ℕ)
  | interpolationFuture (interpolation : Interpolating T)

/-- Why a channel waits, and the time it was polled at. -/
structure CallerChannelBlockedReason (T : Type) [Transposer T] where
  pollTime : Time T
  inner : CallerChannelBlockedReasonInner T

/-- The time the steps have to keep a checkpoint for. -/
def CallerChannelBlockedReason.getPinnedTime (r : CallerChannelBlockedReason T) :
    Option (Time T) :=
  match r.inner with
  | .originalStep => some r.pollTime
  | .repeatStep _ => some r.pollTime
  | .interpolationFuture _ => none

/-- What each caller channel waits for; and for each step that is run again, how many channels
    wait for it, with their stack waker. -/
structure ChannelStatuses (T : Type) [Transposer T] where
  blockedCallerChannels : OrdMap ℕ (CallerChannelBlockedReason T)
  blockedRepeatStepWakers : OrdMap ℕ (ℕ × StackWaker)

/-- The status of a channel, with what the entry of the channel holds. -/
inductive CallerChannelStatus (T : Type) [Transposer T] where
  | free
  | interpolationFuture (pollTime : Time T) (interpolation : Interpolating T)
  | originalStepFuture (pollTime : Time T)
  | repeatStepFuture (pollTime : Time T) (stepId : ℕ)

namespace ChannelStatuses

/-- No channel is blocked. -/
def new : ChannelStatuses T := ⟨.empty, .empty⟩

/-- The times the blocked channels need a checkpoint for. -/
def getPinnedTimes (c : ChannelStatuses T) : List (Time T) :=
  c.blockedCallerChannels.values.filterMap CallerChannelBlockedReason.getPinnedTime

/-- The status of a channel; a channel that waits for a step that is run again needs the wakers of
    the step. -/
def getChannelStatus (c : ChannelStatuses T) (callerChannel : ℕ) :
    Outcome (CallerChannelStatus T) :=
  match c.blockedCallerChannels.get callerChannel with
  | none => return .free
  | some ⟨pollTime, .originalStep⟩ => return .originalStepFuture pollTime
  | some ⟨pollTime, .repeatStep stepId⟩ => do
      let _ ← Outcome.unwrap .repeatStepWakers (c.blockedRepeatStepWakers.get stepId)
      return .repeatStepFuture pollTime stepId
  | some ⟨pollTime, .interpolationFuture i⟩ => return .interpolationFuture pollTime i

/-- Write the entry of a channel. -/
def occupy (c : ChannelStatuses T) (callerChannel : ℕ) (r : CallerChannelBlockedReason T) :
    ChannelStatuses T :=
  { c with blockedCallerChannels := c.blockedCallerChannels.insert callerChannel r }

/-- Remove the entry of a channel. -/
def vacate (c : ChannelStatuses T) (callerChannel : ℕ) : ChannelStatuses T :=
  { c with blockedCallerChannels := c.blockedCallerChannels.remove callerChannel }

/-! The methods of `Free`, for a channel without an entry. -/

/-- The channel waits for an interpolation. -/
def startInterpolation (c : ChannelStatuses T) (callerChannel : ℕ)
    (interpolation : Interpolating T) (pollTime : Time T) : ChannelStatuses T :=
  c.occupy callerChannel ⟨pollTime, .interpolationFuture interpolation⟩

/-- The channel waits for the last step. -/
def startOriginalStep (c : ChannelStatuses T) (callerChannel : ℕ) (pollTime : Time T) :
    ChannelStatuses T :=
  c.occupy callerChannel ⟨pollTime, .originalStep⟩

/-- One more channel waits for the step. -/
def startRepeatStep (c : ChannelStatuses T) (callerChannel stepId : ℕ) (pollTime : Time T) :
    ChannelStatuses T :=
  let wakers :=
    match c.blockedRepeatStepWakers.get stepId with
    | some (n, weak) => (n + 1, weak)
    | none => (1, StackWaker.newEmpty)
  { c.occupy callerChannel ⟨pollTime, .repeatStep stepId⟩ with
    blockedRepeatStepWakers := c.blockedRepeatStepWakers.insert stepId wakers }

/-- One channel less waits for the step; the last one takes the stack waker with it. -/
def releaseRepeatStep (c : ChannelStatuses T) (stepId : ℕ) : ChannelStatuses T :=
  match c.blockedRepeatStepWakers.get stepId with
  | none => c
  | some (n, weak) =>
      { c with
        blockedRepeatStepWakers :=
          -- a count starts at 1, so it is never 0 here
          if n = 1 then c.blockedRepeatStepWakers.remove stepId
          else c.blockedRepeatStepWakers.insert stepId (n - 1, weak) }

/-- The channel stops to wait: `abandon` of the three futures. -/
def abandon (c : ChannelStatuses T) (callerChannel : ℕ) :
    CallerChannelStatus T → ChannelStatuses T
  | .free => c
  | .interpolationFuture _ _ => c.vacate callerChannel
  | .originalStepFuture _ => c.vacate callerChannel
  | .repeatStepFuture _ stepId => (c.releaseRepeatStep stepId).vacate callerChannel

/-- The channel registers for the step; whether it is to poll the step. -/
def registerWaker (c : ChannelStatuses T) (callerChannel stepId : ℕ) :
    Bool × ChannelStatuses T :=
  match c.blockedRepeatStepWakers.get stepId with
  | none => (false, c)
  | some (n, weak) =>
      let (poll, weak) := weak.register callerChannel
      (poll, { c with
        blockedRepeatStepWakers := c.blockedRepeatStepWakers.insert stepId (n, weak) })

/-- Something happens to the stack waker of a step, outside of the source. -/
def wakerEvent (c : ChannelStatuses T) (e : ℕ × StackWakerEvent) : ChannelStatuses T :=
  match c.blockedRepeatStepWakers.get e.1 with
  | none => c
  | some (n, weak) =>
      { c with
        blockedRepeatStepWakers :=
          c.blockedRepeatStepWakers.insert e.1 (n, weak.after e.2) }

end ChannelStatuses

/-! ### Polling an interpolation -/

/-- What a poll of an interpolation ended with. -/
inductive InterpolationPoll (T : Type) [Transposer T] where
  | pending (interpolation : Interpolating T)
  | ready (state : OutputState T)

/-- Poll an interpolation with the answers that are ready for it. -/
def pollInterpolation : ℕ → List (Response T) → Interpolating T → Outcome (InterpolationPoll T)
  | 0, _, _ => .running
  | fuel + 1, answers, i =>
      match resumeInterpolation i with
      | .done state => return .ready state
      | .next k => pollInterpolation fuel answers k
      | .await k =>
          match answers with
          | [] => return .pending i
          | x :: answers => pollInterpolation fuel answers (k x)

end Cozal
