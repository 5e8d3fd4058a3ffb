import Mathlib.Data.List.Infix
import Mathlib.Tactic.Common

namespace Cozal

/-!
# Since

Of a log of what happened, in the order of time: something of one kind has happened, and since then
only things of another kind have, while a condition on the log so far has held.  This is how it is
told which of the things that happened still counts.

* `Since` — the definition, over the log as a whole.
* `since_concat` — and what one more thing that happens does to it, which is how an implementation
  that looks at one thing at a time is compared with it.
-/

variable {ω : Type}

/-- Something that starts it has happened, and since then all that has happened keeps it and the
    log has always met the condition. -/
def Since (starts keeps : ω → Prop) (holds : List ω → Prop) (log : List ω) : Prop :=
  ∃ before x after, log = before ++ x :: after ∧ starts x ∧ (∀ y ∈ after, keeps y) ∧
    ∀ front, front <+: after → holds (before ++ x :: front)

variable {starts keeps : ω → Prop} {holds : List ω → Prop} {log : List ω}

/-- Nothing has started in an empty log. -/
theorem not_since_nil : ¬ Since starts keeps holds [] := by
  rintro ⟨before, x, after, heq, -⟩
  simp at heq

/-- The condition holds at the end. -/
theorem Since.at_end (h : Since starts keeps holds log) : holds log := by
  obtain ⟨before, x, after, rfl, -, -, hall⟩ := h
  exact hall after List.prefix_rfl

/-- **One more thing happens.** -/
theorem since_concat {x : ω} : Since starts keeps holds (log ++ [x]) ↔
    holds (log ++ [x]) ∧ (starts x ∨ keeps x ∧ Since starts keeps holds log) := by
  constructor
  · rintro h
    refine ⟨h.at_end, ?_⟩
    obtain ⟨before, y, after, heq, hstart, hkeeps, hall⟩ := h
    rcases List.eq_nil_or_concat after with rfl | ⟨after, z, rfl⟩
    · obtain ⟨-, hx⟩ := List.append_inj' heq rfl
      exact Or.inl (List.singleton_inj.mp hx ▸ hstart)
    · rw [List.concat_eq_append, ← List.cons_append, ← List.append_assoc] at heq
      obtain ⟨rfl, hx⟩ := List.append_inj' heq rfl
      obtain rfl := List.singleton_inj.mp hx
      simp only [List.concat_eq_append] at hkeeps hall
      refine Or.inr ⟨hkeeps x (by simp), before, y, after, rfl, hstart, ?_, ?_⟩
      · exact fun w hw => hkeeps w (List.mem_append_left _ hw)
      · exact fun front hfront => hall front (hfront.trans (List.prefix_append _ _))
  · rintro ⟨hend, hstart | ⟨hkeep, before, y, after, rfl, hstart, hkeeps, hall⟩⟩
    · refine ⟨log, x, [], rfl, hstart, by simp, ?_⟩
      intro front hfront
      rw [List.prefix_nil.mp hfront]
      exact hend
    · refine ⟨before, y, after ++ [x], by simp, hstart, ?_, ?_⟩
      · intro w hw
        rcases List.mem_append.mp hw with hw | hw
        · exact hkeeps w hw
        · rw [List.mem_singleton.mp hw]
          exact hkeep
      · intro front hfront
        rcases List.prefix_concat_iff.mp hfront with rfl | hfront
        · simpa using hend
        · exact hall front hfront

end Cozal
