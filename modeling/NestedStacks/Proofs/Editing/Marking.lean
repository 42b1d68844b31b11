/-
Marking a template more than once.

A marker gives its policy to the resources of its types and does nothing else.  What another marker
has done before to resources of the same types leaves no trace: `marking_absorbs`.

* `Marker.Marks` — a resource before and after a template is marked;
* `Marker.result_run` — the reports on marking do not change what it gives;
* `Marker.mark_mark`, `Marker.forall₂_markAll` — marking after marking, and marking as a whole.
-/
import NestedStacks.Proofs.Editing.Actions
import NestedStacks.Proofs.Editing.Retaining

namespace NestedStacks

namespace Marker

/-- `m.Marks e e'`: the resource `e` and its name become `e'` when `m` marks it.  The name is kept;
a resource of a stateful type has `DeletionPolicy` set to `m.policy`, and any other one is kept. -/
structure Marks (m : Marker) (e e' : String × Resource) : Prop where
  name : e'.1 = e.1
  stateful : ∀ type, e.2.type? = some type → m.isStateful type = true →
    Entries.Puts "DeletionPolicy" (.str m.policy) e.2.body e'.2.body
  other : (∀ type, e.2.type? = some type → m.isStateful type = false) → e'.2 = e.2

variable {m m' : Marker} {w : World} {n : Nat}

/-! ### One marker -/

theorem applies_iff {r : Resource} :
    m.applies r = true ↔ ∃ type, r.type? = some type ∧ m.isStateful type = true := by
  cases h : r.type? <;> simp [applies, h]

theorem marks_markResource (e : String × Resource) : m.Marks e (e.1, m.markResource e.2) := by
  refine ⟨rfl, fun type htype hstateful => ?_, fun h => ?_⟩
  · rw [markResource, if_pos (applies_iff.mpr ⟨type, htype, hstateful⟩)]
    exact Entries.puts_set _ _ _
  · have hnot : ¬m.applies e.2 = true := by
      intro happlies
      obtain ⟨type, htype, hstateful⟩ := applies_iff.mp happlies
      rw [h type htype] at hstateful
      cases hstateful
    rw [markResource, if_neg hnot]

theorem forall₂_markAll (rs : Resources) : List.Forall₂ m.Marks rs (m.markAll rs) := by
  rw [markAll, List.forall₂_map_right_iff, List.forall₂_same]
  exact fun e _ => marks_markResource e

/-- The reports of `m.run t` do not change what it gives. -/
theorem result_run (m : Marker) (t : Template) (w : World) (n : Nat) :
    (m.run t w n).result = m.mark t := by
  cases hrs : t.resources with
  | error e =>
    rw [mark, hrs, run, hrs]
    rfl
  | ok rs =>
    rw [(run_yields.mpr ⟨rs, hrs, rfl, rfl⟩).1, mark, hrs]
    rfl

/-! ### Two markers -/

/-- If `m'` is for all types of `m`, marking by `m` before makes no difference. -/
theorem markResource_markResource
    (h : ∀ type, m.isStateful type = true → m'.isStateful type = true) (r : Resource) :
    m'.markResource (m.markResource r) = m'.markResource r := by
  have happlies : m'.applies (m.markResource r) = m'.applies r := by
    rw [applies, applies, type?_markResource]
  by_cases hm : m.applies r = true
  · -- then the second marker applies too, and its policy takes the place of the first one
    obtain ⟨type, htype, hstateful⟩ := applies_iff.mp hm
    have hm' : m'.applies r = true := applies_iff.mpr ⟨type, htype, h type hstateful⟩
    rw [markResource, happlies, if_pos hm', markResource, if_pos hm, markResource, if_pos hm']
    exact congrArg Resource.mk (Entries.set_set _ _ _ _)
  · have hsame : m.markResource r = r := by rw [markResource, if_neg hm]
    rw [hsame]

theorem markAll_markAll (h : ∀ type, m.isStateful type = true → m'.isStateful type = true)
    (rs : Resources) : m'.markAll (m.markAll rs) = m'.markAll rs := by
  rw [markAll, markAll, markAll, List.map_map]
  refine List.map_congr_left fun e _ => ?_
  exact congrArg (Prod.mk e.1) (markResource_markResource h e.2)

theorem mark_mark (h : ∀ type, m.isStateful type = true → m'.isStateful type = true)
    (t : Template) : (m.mark t >>= m'.mark) = m'.mark t := by
  rw [mark, mark]
  cases t.resources with
  | error e => rfl
  | ok rs =>
    show m'.mark (t.setResources (m.markAll rs)) = .ok (t.setResources (m'.markAll rs))
    rw [mark_setResources, markAll_markAll h]

end Marker

/-- **Marking absorbs earlier marking and touches nothing else.**  If every type that is stateful
for `before` is so for `m`, then marking `t` by `before` and then by `m` has the result of marking
it by `m`, be it a template or an error.  And when the names of the resources `rs` of `t` are
different, marking by `m` succeeds; the marked template has `rs'` with `m.Marks e e'` one by one,
and differs from `t` in nothing but its `Resources`. -/
theorem marking_absorbs (m : Marker) (t : Template) (w : World) (n : Nat) :
    (∀ before : Marker, (∀ type, before.isStateful type = true → m.isStateful type = true) →
        ((before.run t >>= m.run) w n).result = (m.run t w n).result) ∧
      ∀ rs, t.resources = .ok rs → (rs.map (·.1)).Nodup →
        ∃ marked rs' entries, (m.run t w n).result = .ok marked ∧ marked.resources = .ok rs' ∧
          List.Forall₂ m.Marks rs rs' ∧
          Entries.Puts "Resources" (.map entries) t.root marked.root := by
  refine ⟨fun before h => ?_, fun rs hrs hnames => ?_⟩
  · rw [Marker.result_run, ← Marker.mark_mark h]
    cases hbefore : before.mark t with
    | error e =>
      rw [Run.bind_error (e := e) _ ((before.result_run t w n).trans hbefore)]
      rfl
    | ok marked =>
      rw [Run.bind_ok _ ((before.result_run t w n).trans hbefore)]
      exact m.result_run marked w _
  · have hmark : m.mark t = .ok (t.setResources (m.markAll rs)) := by
      rw [Marker.mark, hrs]
      rfl
    exact ⟨_, m.markAll rs, _, (m.result_run t w n).trans hmark,
      Marker.resources_setResources_markAll t hnames, Marker.forall₂_markAll rs,
      Entries.puts_set _ _ _⟩

/-- A queue, whose type is behind a tag, with `policy` in front of its properties. -/
def keptQueue (policy : String) : Resource :=
  ⟨[(.str "Type", .tagged "!Ref" (.str "AWS::SQS::Queue")), (.str "DeletionPolicy", .str policy),
    (.str "Properties", .map [])]⟩

/-- A queue that gets one policy and then another has the second one, where the first one was. -/
theorem marking_absorbs_queue :
    (((Marker.standard.withPolicy "Snapshot").run (.ofResource "Queue" (keptQueue "Delete")) >>=
        Marker.standard.run) World.empty 0).result =
      .ok (.ofResource "Queue" (keptQueue "Retain")) ∧
    ∃ rs', (Template.ofResource "Queue" (keptQueue "Retain")).resources = .ok rs' ∧
      List.Forall₂ Marker.standard.Marks [("Queue", keptQueue "Delete")] rs' := by
  have honce : (Marker.standard.run (.ofResource "Queue" (keptQueue "Delete")) World.empty
      0).result = .ok (.ofResource "Queue" (keptQueue "Retain")) := rfl
  obtain ⟨htwice, hmark⟩ :=
    marking_absorbs .standard (.ofResource "Queue" (keptQueue "Delete")) .empty 0
  obtain ⟨marked, rs', -, hmarked, hrs', hmarks, -⟩ := hmark _ rfl (by decide)
  obtain rfl := Except.ok.inj (honce.symm.trans hmarked)
  exact ⟨(htwice (Marker.standard.withPolicy "Snapshot") fun _ h => h).trans honce, rs', hrs',
    hmarks⟩

end NestedStacks
