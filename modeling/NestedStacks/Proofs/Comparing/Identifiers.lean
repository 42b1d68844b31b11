/-
Worlds that differ in nothing but their identifiers.

All work in such worlds goes alike: it reads the same files, and what it draws is all that can
differ.  So work that draws nothing comes to the same result in both.

* `World.SameButIdentifiers` — such worlds;
* `resolveMacro_identifiers`, `processResources_identifiers` — from macros to templates;
* `Template.load_identifiers`, `flatten_identifiers` — whole files.
-/
import NestedStacks.Proofs.Comparing.Flattening

namespace NestedStacks

/-- `w.SameButIdentifiers w'`: `w` and `w'` have the same files, seen from the same directory, and
the same bound. -/
structure World.SameButIdentifiers (w w' : World) : Prop where
  workingDirectory : w.workingDirectory = w'.workingDirectory
  lookup : w.lookup = w'.lookup
  depth : w.depth = w'.depth

theorem eq_errorsAgree : ErrorsAgree Eq Eq where
  document _ _ := rfl
  stack _ _ := rfl
  inside _ _ h := congrArg StackError.document h

variable {w w' : World} (hsame : w.SameButIdentifiers w')
include hsame

theorem World.SameButIdentifiers.read (p : Path) : w.read p = w'.read p := by
  rw [World.read, World.read, hsame.workingDirectory, hsame.lookup]

/-- The macro `m` is replaced alike in `w` and `w'`. -/
theorem resolveMacro_identifiers (depth : Nat) (scope : Scope) (m : MacroTag) (argument : String) :
    (resolveMacro depth scope m argument).Alike w w' Eq Eq
      (resolveMacro depth scope m argument) := by
  induction depth generalizing scope m argument with
  | zero =>
    rw [resolveMacro_eq_via]
    refine includeVia_alike eq_errorsAgree.document ?_ ?_ ?_
    · exact fun _ _ _ _ _ hyields => wellTagged_includedDocument hyields
    · exact fun _ => ⟨hsame.read _, fun _ _ => rfl⟩
    · exact fun _ _ _ _ => .fail rfl
  | succ depth ih =>
    rw [resolveMacro_eq_via]
    refine includeVia_alike eq_errorsAgree.document ?_ ?_ ?_
    · exact fun _ _ _ _ _ hyields => wellTagged_includedDocument hyields
    · exact fun _ => ⟨hsame.read _, fun _ _ => rfl⟩
    · intro _ _ text _
      refine loadWith_alike eq_errorsAgree.document fun raw _ => ?_
      exact fun _ m' _ argument' _ _ => ih _ m' argument'

theorem Template.load_identifiers (macros : Bool) (path : Path) :
    (Template.load macros path).Alike w w' Eq Eq (Template.load macros path) := by
  refine Template.load_alike eq_errorsAgree (hsame.read path) (fun _ _ => rfl)
    fun text raw _ _ => ?_
  cases macros with
  | false => exact trivial
  | true =>
    rw [← hsame.depth]
    exact fun _ m _ argument _ _ => resolveMacro_identifiers hsame w.depth _ m argument

/-- A well tagged template `t` comes to the same resources in `w` and `w'`, if both draw the same
identifiers. -/
theorem processResources_identifiers (macros : Bool) (depth : Nat) {t : Template}
    (ht : t.toTree.WellTagged) (ctx : Context) :
    (processResources macros depth t ctx).Alike w w' Eq Eq
      (processResources macros depth t ctx) := by
  have hnested : ∀ (ctx : Context) (e : String × Resource),
      e.2.nestedContext e.1 ctx w.workingDirectory =
        e.2.nestedContext e.1 ctx w'.workingDirectory := by
    intro ctx e
    rw [hsame.workingDirectory]
  induction depth generalizing t ctx with
  | zero =>
    rw [processResources_eq_inside]
    refine processVia_alike eq_errorsAgree ⟨fun _ => rfl, rfl⟩ ht
      (fun _ _ e _ _ => hnested ctx e) ?_
    exact fun _ _ _ _ _ _ _ _ _ => .fail rfl
  | succ depth ih =>
    rw [processResources_eq_inside]
    refine processVia_alike eq_errorsAgree ⟨fun _ => rfl, rfl⟩ ht
      (fun _ _ e _ _ => hnested ctx e) ?_
    intro rs _ e _ _ kind path naming _
    refine templateInside_alike (Template.load_identifiers hsame macros path) fun _ t _ hload => ?_
    exact ih (Template.normal_of_load hload).wellTagged naming

/-- The template at `path` is flattened alike in `w` and `w'`. -/
theorem flatten_identifiers (macros : Bool) (path : Path) :
    (flatten macros path).Alike w w' Eq Eq (flatten macros path) := by
  have hwithin : (flattenWithin macros w.depth path).Alike w w' Eq Eq
      (flattenWithin macros w.depth path) := by
    refine flattenWithin_alike (Template.load_identifiers hsame macros path) fun _ t _ hload => ?_
    have ht := (Template.normal_of_load hload).wellTagged
    exact processResources_identifiers hsame macros w.depth ht _
  refine hwithin.congr (flatten_eq_within macros path w) ?_
  rw [flatten_eq_within, hsame.depth]

end NestedStacks
