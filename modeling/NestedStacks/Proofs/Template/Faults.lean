/-
What can be wrong with a template itself.

Reading the resources of a template, and finding out what a stack stands for, fails only with errors
about what the template says.  None of them is about a tag, and none is about a path.

* `StackError.AboutTemplate` — these errors;
* `Template.aboutTemplate_resources`, `Resource.aboutTemplate_nestedContext` — where they come from.
-/
import NestedStacks.Template.Flatten
import NestedStacks.Proofs.Tagging.WellTagged

namespace NestedStacks

/-- `e.AboutTemplate`: `e` is about what a template says. -/
def StackError.AboutTemplate : StackError → Prop
  | .config _ | .invalidTemplate _ | .unsupportedResource _ | .document (.invalidKey _) => True
  | _ => False

/-- An error `e` about a template is none of the system. -/
theorem StackError.AboutTemplate.kind_ne_io {e : StackError} (h : e.AboutTemplate) :
    e.kind ≠ .io := by
  intro hkind
  unfold StackError.AboutTemplate at h
  split at h
  · cases hkind
  · cases hkind
  · cases hkind
  · cases hkind
  · exact h

namespace Template

variable {e : StackError}

theorem aboutTemplate_ofTree {tree : Tree} (h : Template.ofTree tree = .error e) :
    e.AboutTemplate := by
  unfold Template.ofTree at h
  split at h <;> cases h
  exact trivial

theorem aboutTemplate_resourceOf {entry : Tree × Tree} (h : resourceOf entry = .error e) :
    e.AboutTemplate := by
  rcases Except.bind_eq_error.mp h with h | ⟨name, -, h⟩
  · obtain ⟨d, hd, rfl⟩ := Except.mapError_eq_error.mp h
    obtain ⟨found, rfl⟩ := Tree.keyText_eq_error hd
    exact trivial
  rcases Except.bind_eq_error.mp h with h | ⟨r, -, h⟩
  · unfold Resource.ofTree at h
    split at h <;> cases h
    exact trivial
  · exact absurd h Except.pure_ne_error

theorem aboutTemplate_resources {t : Template} (h : t.resources = .error e) :
    e.AboutTemplate := by
  unfold resources at h
  split at h
  · cases h
  · cases h
  · obtain ⟨entry, -, h⟩ := Except.mapM_eq_error h
    exact aboutTemplate_resourceOf h
  · cases h
    exact trivial

end Template

theorem Resource.aboutTemplate_nestedContext {r : Resource} {name : String} {ctx : Context}
    {directory : Path} {e : StackError} (h : r.nestedContext name ctx directory = .error e) :
    e.AboutTemplate := by
  rw [Resource.nestedContext] at h
  -- the errors of the four checks, in their order
  rcases Except.bind_eq_error.mp h with h | ⟨kind, -, h⟩
  · unfold Resource.stackKind at h
    dsimp only at h
    split at h <;> cases h
    exact trivial
  cases hlocation : ctx.location with
  | none =>
    simp only [hlocation] at h
    cases h
    exact trivial
  | some master =>
    simp only [hlocation] at h
    rcases Except.bind_eq_error.mp h with h | ⟨_, -, h⟩
    · cases h
    rcases Except.bind_eq_error.mp h with h | ⟨_, -, h⟩
    · unfold Resource.templateLocation at h
      dsimp only at h
      split at h <;> cases h
      exact trivial
    rcases Except.bind_eq_error.mp h with h | ⟨_, -, h⟩
    · unfold Resource.parameters at h
      split at h <;> cases h
      exact trivial
    · exact absurd h Except.pure_ne_error

end NestedStacks
