/-
Loading what was read.

A document that was written is read with bare tags.  If its tags were in order, then loading puts
the exclamation marks back in front of them, and does nothing else.

* `Tree.standard` — the document with the standard spellings of its tags;
* `Tree.TaggedIn.load_standard` — a document in order but for its marks is loaded to that;
* `Tree.TaggedIn.sameValue_standard` — and that is the document, but for marks inside keys.
-/
import NestedStacks.Proofs.Tagging.Loading
import NestedStacks.Proofs.Writing.Spelling

namespace NestedStacks

/-! ### Standard spellings -/

namespace Tag

/-- Exclamation marks in front of `s` do not count for the tag that `s` stands for. -/
theorem ofYaml?_tagName (s : String) : ofYaml? (tagName s) = ofYaml? s := by
  unfold ofYaml? tagName
  split
  · rename_i c rest h
    rw [h, String.toList_ofList]
    rfl
  · rfl

theorem ofYaml?_congr {s s' : String} (h : tagName s = tagName s') : ofYaml? s = ofYaml? s' := by
  rw [← ofYaml?_tagName, h, ofYaml?_tagName]

/-- The spelling that the tag `s` gets when it is loaded. -/
def standardSpelling (s : String) : String := ((ofYaml? s).map spelling).getD s

/-- What is spelled like the tag `c`, up to exclamation marks, stands for `c`. -/
theorem ofYaml?_of_tagName {c : Tag} {s : String} (h : tagName c.spelling = tagName s) :
    ofYaml? s = some c := by
  rw [← ofYaml?_congr h, ofYaml?_spelling]

end Tag

namespace Tree

/-- The document `t` with the standard spellings of its tags outside keys. -/
def standard (t : Tree) : Tree := t.respell id Tag.standardSpelling

theorem standard_seq (items : List Tree) :
    (Tree.seq items).standard = .seq (items.map standard) :=
  respell_seq id Tag.standardSpelling items

theorem standard_map (entries : Entries) :
    (Tree.map entries).standard = .map (entries.map fun e => (e.1, e.2.standard)) := by
  simp only [standard, respell_map, respell_id]

theorem standard_tagged {tag : String} {c : Tag} (h : Tag.ofYaml? tag = some c) (payload : Tree) :
    (Tree.tagged tag payload).standard = .tagged c.spelling payload.standard := by
  rw [standard, respell_tagged, Tag.standardSpelling, h]
  rfl

/-! ### Loading what was read -/

variable {allowed : Tag → Prop} {resolve : Option Resolver} {t raw : Tree}

/-- If `raw` is a document `t` in order but for exclamation marks, it is loaded without a step, and
all that happens is that the marks are put there. -/
theorem TaggedIn.load_standard (ht : t.TaggedIn allowed)
    (hleft : ∀ c : Tag, allowed c → resolve = none ∨ c.macroTag? = none) (hraw : t.SameText raw) :
    raw.load resolve = pure raw.standard := by
  have hseq : ∀ {items raws : List Tree},
      (∀ t ∈ items, ∀ {raw}, t.SameText raw → raw.load resolve = pure raw.standard) →
        List.Forall₂ SameText items raws →
          (Tree.seq raws).load resolve = pure (Tree.seq raws).standard := by
    intro items raws ih hitems
    rw [standard_seq]
    refine load_seq_pure (mapM_eq_pure_map fun raw hraw => ?_)
    obtain ⟨t, ht, h⟩ := forall₂_exists_left hitems hraw
    exact ih t ht h
  induction ht generalizing raw with
  | null | bool | num | str =>
    rw [hraw.eq_of_scalar (by simp [shape])]
    rfl
  | seq _ ih =>
    obtain ⟨raws, rfl, hitems⟩ := alike_seq.mp hraw
    exact hseq ih hitems
  | map _ ih =>
    obtain ⟨raws, rfl, hentries⟩ := alike_map.mp hraw
    rw [standard_map]
    refine load_map_pure (mapM_eq_pure_map fun e' he' => ?_)
    obtain ⟨e, he, h⟩ := forall₂_exists_left hentries he'
    rw [ih e he h.2]
    simp
  | @text c ha hk s =>
    obtain ⟨tag, payload, rfl, htag, hpayload⟩ := alike_tagged.mp hraw
    have hc := Tag.ofYaml?_of_tagName htag
    obtain rfl := hpayload.eq_of_scalar (by simp [shape])
    rw [standard_tagged hc,
      load_text (TaggedNode.ofTagged_eq_ok.mpr ⟨c, hc, .inl ⟨hk, s, rfl, rfl⟩⟩) (hleft c ha)]
    rfl
  | @list c ha hk items _ ih =>
    obtain ⟨tag, payload, rfl, htag, hpayload⟩ := alike_tagged.mp hraw
    have hc := Tag.ofYaml?_of_tagName htag
    obtain ⟨raws, rfl, hitems⟩ := alike_seq.mp hpayload
    rw [standard_tagged hc,
      load_list (TaggedNode.ofTagged_eq_ok.mpr ⟨c, hc, .inr ⟨hk, raws, rfl, rfl⟩⟩), hseq ih hitems]
    simp

/-- Putting the marks back in `raw` gives the document `t`, but for those inside keys. -/
theorem TaggedIn.sameValue_standard (ht : t.TaggedIn allowed) (hraw : t.SameText raw) :
    t.SameValue raw.standard := by
  have hitems : ∀ {items raws : List Tree},
      (∀ t ∈ items, ∀ {raw}, t.SameText raw → t.SameValue raw.standard) →
        List.Forall₂ SameText items raws →
          (Tree.seq items).SameValue (Tree.seq raws).standard := by
    intro items raws ih h
    rw [standard_seq]
    refine alike_seq.mpr ⟨_, rfl, List.forall₂_map_right_iff.mpr ?_⟩
    exact forall₂_of_mem h fun t ht raw hraw => ih t ht hraw
  induction ht generalizing raw with
  | null | bool | num | str =>
    rw [hraw.eq_of_scalar (by simp [shape])]
    rfl
  | seq _ ih =>
    obtain ⟨raws, rfl, h⟩ := alike_seq.mp hraw
    exact hitems ih h
  | map _ ih =>
    obtain ⟨raws, rfl, h⟩ := alike_map.mp hraw
    rw [standard_map]
    refine alike_map.mpr ⟨_, rfl, List.forall₂_map_right_iff.mpr ?_⟩
    exact forall₂_of_mem h fun e he e' h => ⟨h.1, ih e he h.2⟩
  | @text c _ _ s =>
    obtain ⟨tag, payload, rfl, htag, hpayload⟩ := alike_tagged.mp hraw
    obtain rfl := hpayload.eq_of_scalar (by simp [shape])
    rw [standard_tagged (Tag.ofYaml?_of_tagName htag)]
    rfl
  | @list c _ _ items _ ih =>
    obtain ⟨tag, payload, rfl, htag, hpayload⟩ := alike_tagged.mp hraw
    obtain ⟨raws, rfl, h⟩ := alike_seq.mp hpayload
    rw [standard_tagged (Tag.ofYaml?_of_tagName htag)]
    exact alike_tagged.mpr ⟨_, _, rfl, rfl, hitems ih h⟩

end Tree

end NestedStacks
