/-
Exclamation marks in front of the names of tags.

A tag is read without its exclamation mark and written with it, so a document that is written and
read again has other spellings of its tags.  Its text and its plain data do not depend on them.

* `Tree.respell`, `Tree.SameText`, `Tree.SameValue` — documents with other spellings of their tags;
* `Markup.print_congr` — the text of a document depends only on the names of its tags;
* `Tree.WellTagged.toData_congr` — plain data do not depend on the spelling of tags inside keys.
-/
import NestedStacks.Markup.Printer
import NestedStacks.Proofs.Tagging.WellTagged

namespace NestedStacks

namespace Tree

mutual
/-- `respell k f t`: the document `t` with other spellings of its tags, which `k` changes inside
keys and `f` outside of them. -/
def respell (k f : String → String) : Tree → Tree
  | .seq items => .seq (respellItems k f items)
  | .map entries => .map (respellEntries k f entries)
  | .tagged tag payload => .tagged (f tag) (respell k f payload)
  | t => t

/-- `respell k f` on each item. -/
def respellItems (k f : String → String) : List Tree → List Tree
  | [] => []
  | t :: rest => respell k f t :: respellItems k f rest

/-- `respell k k` on each key and `respell k f` on each value. -/
def respellEntries (k f : String → String) : List (Tree × Tree) → List (Tree × Tree)
  | [] => []
  | (key, value) :: rest => (respell k k key, respell k f value) :: respellEntries k f rest
end

variable {f : String → String} {t t' : Tree} {items items' : List Tree} {entries entries' : Entries}

theorem respellItems_eq_map (k f : String → String) (items : List Tree) :
    respellItems k f items = items.map (respell k f) := by
  induction items with
  | nil => rfl
  | cons t rest ih => exact congrArg (t.respell k f :: ·) ih

theorem respellEntries_eq_map (k f : String → String) (entries : Entries) :
    respellEntries k f entries = entries.map fun e => (e.1.respell k k, e.2.respell k f) := by
  induction entries with
  | nil => rfl
  | cons e rest ih => exact congrArg ((e.1.respell k k, e.2.respell k f) :: ·) ih

@[simp] theorem respell_null (k f : String → String) : Tree.null.respell k f = .null := rfl

@[simp] theorem respell_bool (k f : String → String) (b : Bool) :
    (Tree.bool b).respell k f = .bool b := rfl

@[simp] theorem respell_num (k f : String → String) (n : Number) :
    (Tree.num n).respell k f = .num n := rfl

@[simp] theorem respell_str (k f : String → String) (s : String) :
    (Tree.str s).respell k f = .str s := rfl

@[simp] theorem respell_seq (k f : String → String) (items : List Tree) :
    (Tree.seq items).respell k f = .seq (items.map (respell k f)) :=
  congrArg Tree.seq (respellItems_eq_map k f items)

@[simp] theorem respell_map (k f : String → String) (entries : Entries) :
    (Tree.map entries).respell k f =
      .map (entries.map fun e => (e.1.respell k k, e.2.respell k f)) :=
  congrArg Tree.map (respellEntries_eq_map k f entries)

@[simp] theorem respell_tagged (k f : String → String) (tag : String) (payload : Tree) :
    (Tree.tagged tag payload).respell k f = .tagged (f tag) (payload.respell k f) := rfl

/-- Spelling the tags of `t` as they are spelled changes nothing. -/
theorem respell_id (t : Tree) : t.respell id id = t := by
  induction t using Tree.induct with
  | null | bool | num | str => rfl
  | seq items ih => rw [respell_seq, List.map_congr_left ih, List.map_id']
  | map entries ihk ihv =>
    rw [respell_map, List.map_congr_left fun e he => by rw [ihk e he, ihv e he]]
    simp
  | tagged tag payload ih => rw [respell_tagged, ih, id]

/-- Spelling the tags of `t` anew twice is spelling them anew once. -/
theorem respell_respell (k k' f f' : String → String) (t : Tree) :
    (t.respell k f).respell k' f' = t.respell (k' ∘ k) (f' ∘ f) := by
  -- the spellings outside keys are left open, since inside a key they are those of keys
  induction t using Tree.induct generalizing f f' with
  | null | bool | num | str => rfl
  | seq items ih =>
    simp only [respell_seq, List.map_map, seq.injEq]
    exact List.map_congr_left fun t ht => ih t ht f f'
  | map entries ihk ihv =>
    simp only [respell_map, List.map_map, map.injEq]
    exact List.map_congr_left fun e he => Prod.ext (ihk e he k k') (ihv e he f f')
  | tagged tag payload ih => rw [respell_tagged, respell_tagged, respell_tagged, ih, Function.comp]

/-- `Alike f t t'`: `t` and `t'` have the same tags up to exclamation marks inside keys, and the
same ones as far as `f` shows them outside, and are equal otherwise. -/
def Alike (f : String → String) (t t' : Tree) : Prop := t.respell tagName f = t'.respell tagName f

/-- `t.SameText t'`: `t` and `t'` differ only in exclamation marks in front of the names of tags. -/
abbrev SameText (t t' : Tree) : Prop := Alike tagName t t'

/-- `t.SameValue t'`: `t` and `t'` differ only in exclamation marks inside keys. -/
abbrev SameValue (t t' : Tree) : Prop := Alike id t t'

/-- `t.BareKeys`: there are no exclamation marks inside keys of `t`. -/
def BareKeys (t : Tree) : Prop := t.respell tagName id = t

/-- `AlikeEntry f e e'`: the keys of `e` and `e'` have the same text, and their values are alike. -/
def AlikeEntry (f : String → String) (e e' : Tree × Tree) : Prop :=
  e.1.SameText e'.1 ∧ Alike f e.2 e'.2

/-! ### Documents that are alike -/

theorem map_respell_eq_iff :
    items.map (respell tagName f) = items'.map (respell tagName f) ↔
      List.Forall₂ (Alike f) items items' := by
  rw [← List.forall₂_eq_eq_eq, List.forall₂_map_left_iff, List.forall₂_map_right_iff]
  rfl

theorem map_respellEntry_eq_iff :
    (entries.map fun e => (e.1.respell tagName tagName, e.2.respell tagName f)) =
        entries'.map (fun e => (e.1.respell tagName tagName, e.2.respell tagName f)) ↔
      List.Forall₂ (AlikeEntry f) entries entries' := by
  rw [← List.forall₂_eq_eq_eq, List.forall₂_map_left_iff, List.forall₂_map_right_iff]
  simp only [Prod.mk.injEq]
  rfl

theorem alike_seq :
    Alike f (.seq items) t' ↔ ∃ items', t' = .seq items' ∧ List.Forall₂ (Alike f) items items' := by
  cases t' <;> simp [Alike, map_respell_eq_iff]

theorem alike_map :
    Alike f (.map entries) t' ↔
      ∃ entries', t' = .map entries' ∧ List.Forall₂ (AlikeEntry f) entries entries' := by
  cases t' <;> simp [Alike, map_respellEntry_eq_iff]

theorem alike_tagged {tag : String} {payload : Tree} :
    Alike f (.tagged tag payload) t' ↔
      ∃ tag' payload', t' = .tagged tag' payload' ∧ f tag = f tag' ∧ Alike f payload payload' := by
  cases t' <;> simp [Alike]

/-- A scalar `t` without a tag is alike only with itself. -/
theorem Alike.eq_of_scalar (h : Alike f t t') (hs : t.shape = .null ∨ t.shape = .scalar) :
    t' = t := by
  unfold Alike at h
  cases t <;> simp [shape] at hs <;> cases t' <;> simp_all

/-- Without exclamation marks inside keys there is no difference left between `t` and `t'`. -/
theorem SameValue.eq_of_bareKeys (h : t.SameValue t') (ht : t.BareKeys) (ht' : t'.BareKeys) :
    t' = t := by
  rw [← ht', ← h, ht]

/-- Other spellings of the tags of `t` outside keys leave keys without exclamation marks. -/
theorem BareKeys.respell (ht : t.BareKeys) : (t.respell id f).BareKeys := by
  unfold BareKeys
  calc (t.respell id f).respell tagName id
      = t.respell tagName f := t.respell_respell id tagName f id
    _ = (t.respell tagName id).respell id f := (t.respell_respell tagName id id f).symm
    _ = t.respell id f := by rw [ht]

theorem SameValue.sameText (h : t.SameValue t') : t.SameText t' := by
  induction t using Tree.induct generalizing t' with
  | null | bool | num | str => rw [h.eq_of_scalar (by simp [shape])]; rfl
  | seq items ih =>
    obtain ⟨items', rfl, hitems⟩ := alike_seq.mp h
    exact alike_seq.mpr ⟨_, rfl, forall₂_of_mem hitems fun u hu u' => ih u hu⟩
  | map entries _ ih =>
    obtain ⟨entries', rfl, hentries⟩ := alike_map.mp h
    exact alike_map.mpr ⟨_, rfl, forall₂_of_mem hentries fun e he e' h => ⟨h.1, ih e he h.2⟩⟩
  | tagged tag payload ih =>
    obtain ⟨tag', payload', rfl, htag, hpayload⟩ := alike_tagged.mp h
    exact alike_tagged.mpr ⟨_, _, rfl, congrArg tagName htag, ih hpayload⟩

end Tree

/-! ### Texts -/

namespace Markup

open NestedStacks.Tree

variable {t t' : Tree} {tag tag' : String}

theorem tagParts_congr (h : tagName tag = tagName tag') : tagParts tag = tagParts tag' := by
  simp only [tagParts, h]

theorem tagText_congr (h : tagName tag = tagName tag') : tagText tag = tagText tag' := by
  simp only [tagText, tagParts_congr h]

theorem tagLength_congr (h : tagName tag = tagName tag') : tagLength tag = tagLength tag' := by
  simp only [tagLength, tagParts_congr h]

theorem isTagged_congr (h : t.SameText t') : isTagged t = isTagged t' := by
  unfold SameText Alike at h
  cases t <;> cases t' <;> simp_all [isTagged]

theorem keyLength?_congr (h : t.SameText t') : keyLength? t = keyLength? t' := by
  cases t with
  | null | bool | num | str => rw [h.eq_of_scalar (by simp [shape])]
  | seq items =>
    obtain ⟨items', rfl, hitems⟩ := alike_seq.mp h
    cases hitems <;> rfl
  | map entries =>
    obtain ⟨entries', rfl, hentries⟩ := alike_map.mp h
    cases hentries <;> rfl
  | tagged tag payload =>
    obtain ⟨_, _, rfl, -⟩ := alike_tagged.mp h
    rfl

theorem keyFits_congr (h : t.SameText t') : keyFits t = keyFits t' := by
  cases t with
  | tagged tag payload =>
    obtain ⟨_, _, rfl, htag, hpayload⟩ := alike_tagged.mp h
    rw [keyFits, keyFits, keyLength?_congr hpayload, tagLength_congr htag]
  | null | bool | num | str => rw [h.eq_of_scalar (by simp [shape])]
  | seq =>
    obtain ⟨_, rfl, -⟩ := alike_seq.mp h
    simp only [keyFits, keyLength?_congr h]
  | map =>
    obtain ⟨_, rfl, -⟩ := alike_map.mp h
    simp only [keyFits, keyLength?_congr h]

theorem printShort_congr (h : t.SameText t') : printShort t = printShort t' := by
  cases t with
  | null | bool | num | str => rw [h.eq_of_scalar (by simp [shape])]
  | seq =>
    obtain ⟨_, rfl, -⟩ := alike_seq.mp h
    rfl
  | map =>
    obtain ⟨_, rfl, -⟩ := alike_map.mp h
    rfl
  | tagged =>
    obtain ⟨_, _, rfl, -⟩ := alike_tagged.mp h
    rfl

/-- `PrintsAlike t t'`: `t` and `t'` have the same text, wherever they stand. -/
structure PrintsAlike (t t' : Tree) : Prop where
  sameText : t.SameText t'
  node : ∀ p, printNode p t = printNode p t'

theorem PrintsAlike.key (h : PrintsAlike t t') (column : Nat) :
    printKey column t = printKey column t' := by
  have hfits := keyFits_congr h.sameText
  cases t with
  | null | bool | num | str => rw [h.sameText.eq_of_scalar (by simp [shape])]
  | tagged tag payload =>
    obtain ⟨_, _, rfl, htag, hpayload⟩ := alike_tagged.mp h.sameText
    rw [printKey, printKey, hfits, tagText_congr htag, printShort_congr hpayload, h.node]
  | seq =>
    have hshort := printShort_congr h.sameText
    obtain ⟨_, rfl, -⟩ := alike_seq.mp h.sameText
    simp only [printKey, hfits, h.node, hshort]
  | map =>
    have hshort := printShort_congr h.sameText
    obtain ⟨_, rfl, -⟩ := alike_map.mp h.sameText
    simp only [printKey, hfits, h.node, hshort]

theorem printItems_congr {items items' : List Tree} (h : List.Forall₂ PrintsAlike items items')
    (column : Nat) : printItems column items = printItems column items' := by
  induction h with
  | nil => rfl
  | cons hu _ ih => rw [printItems, printItems, hu.node, ih]

theorem printEntries_congr {entries entries' : Entries}
    (h : List.Forall₂ (fun e e' => PrintsAlike e.1 e'.1 ∧ PrintsAlike e.2 e'.2) entries entries')
    (column : Nat) : printEntries column entries = printEntries column entries' := by
  induction h with
  | nil => rfl
  | cons he _ ih =>
    rw [printEntries, printEntries, he.1.key, keyFits_congr he.1.sameText, he.2.node, ih]

theorem printsAlike (h : t.SameText t') : PrintsAlike t t' := by
  refine ⟨h, ?_⟩
  induction t using Tree.induct generalizing t' with
  | null | bool | num | str => rw [h.eq_of_scalar (by simp [shape])]; simp
  | seq items ih =>
    obtain ⟨items', rfl, hitems⟩ := alike_seq.mp h
    have hitems := forall₂_of_mem hitems fun u hu u' h => PrintsAlike.mk h (ih u hu h)
    intro p
    cases hitems with
    | nil => rfl
    | cons hu hrest => rw [printNode, printNode, hu.node, printItems_congr hrest]
  | map entries ihk ihv =>
    obtain ⟨entries', rfl, hentries⟩ := alike_map.mp h
    have hentries := forall₂_of_mem hentries fun e he e' h =>
      And.intro (PrintsAlike.mk h.1 (ihk e he h.1)) (PrintsAlike.mk h.2 (ihv e he h.2))
    intro p
    cases hentries with
    | nil => rfl
    | cons he hrest =>
      rw [printNode, printNode, he.1.key, keyFits_congr he.1.sameText, he.2.node,
        printEntries_congr hrest]
  | tagged tag payload ih =>
    obtain ⟨tag', payload', rfl, htag, hpayload⟩ := alike_tagged.mp h
    intro p
    rw [printNode, printNode, tagText_congr htag, ih hpayload]

theorem looksLikeTag_congr (h : t.SameText t') : looksLikeTag t = looksLikeTag t' := by
  cases t with
  | null | bool | num | str => rw [h.eq_of_scalar (by simp [shape])]
  | seq =>
    obtain ⟨_, rfl, -⟩ := alike_seq.mp h
    rfl
  | map =>
    obtain ⟨_, rfl, hentries⟩ := alike_map.mp h
    rcases hentries with _ | ⟨_, _ | _⟩ <;> rfl
  | tagged =>
    obtain ⟨_, _, rfl, -⟩ := alike_tagged.mp h
    rfl

theorem itemsHaveText_congr {items items' : List Tree}
    (h : List.Forall₂ (fun u u' => hasText u = hasText u') items items') :
    itemsHaveText items = itemsHaveText items' := by
  induction h with
  | nil => rfl
  | cons hu _ ih => exact congrArg₂ (· && ·) hu ih

theorem entriesHaveText_congr {entries entries' : Entries}
    (h : List.Forall₂ (fun e e' => hasText e.1 = hasText e'.1 ∧ hasText e.2 = hasText e'.2)
      entries entries') : entriesHaveText entries = entriesHaveText entries' := by
  induction h with
  | nil => rfl
  | cons he _ ih => exact congrArg₂ (· && ·) (congrArg₂ (· && ·) he.1 he.2) ih

theorem hasText_congr (h : t.SameText t') :
    hasText t = hasText t' ∧ payloadHasText t = payloadHasText t' := by
  induction t using Tree.induct generalizing t' with
  | null | bool | num | str => rw [h.eq_of_scalar (by simp [shape])]; simp
  | seq items ih =>
    obtain ⟨items', rfl, hitems⟩ := alike_seq.mp h
    have hall := itemsHaveText_congr (forall₂_of_mem hitems fun u hu u' h => (ih u hu h).1)
    exact ⟨hall, hall⟩
  | map entries ihk ihv =>
    obtain ⟨entries', rfl, hentries⟩ := alike_map.mp h
    have hall := entriesHaveText_congr (forall₂_of_mem hentries fun e he e' h =>
      And.intro (ihk e he h.1).1 (ihv e he h.2).1)
    refine ⟨?_, hall⟩
    -- the key of a mapping of one entry counts for more
    rcases hentries with _ | ⟨he, _ | _⟩
    · rfl
    · simp only [hasText, looksLikeTag_congr he.1, hall]
    · simp only [hasText, hall]
  | tagged tag payload ih =>
    obtain ⟨tag', payload', rfl, -, hpayload⟩ := alike_tagged.mp h
    rw [hasText, hasText, payloadHasText, payloadHasText, isTagged_congr hpayload, (ih hpayload).2]
    exact ⟨rfl, rfl⟩

/-- The text of a document `t` depends only on the names of its tags. -/
theorem print_congr (h : t.SameText t') : print t = print t' := by
  rw [print, print, (hasText_congr h).1, (printsAlike h).node]

end Markup

/-! ### Plain data -/

namespace Tree

variable {t t' : Tree}

theorem keyText_congr (h : t.SameText t') : keyText t = keyText t' := by
  unfold SameText Alike at h
  cases t <;> cases t' <;> simp_all [keyText, shape]

/-- The plain data of a document `t` in order do not depend on the spelling of tags inside keys. -/
theorem WellTagged.toData_congr (ht : t.WellTagged) (h : t.SameValue t') :
    t.toData = t'.toData := by
  induction ht generalizing t' with
  | null | bool | num | str => rw [h.eq_of_scalar (by simp [shape])]
  | seq _ ih =>
    obtain ⟨items', rfl, hitems⟩ := alike_seq.mp h
    exact toData_seq_congr (forall₂_of_mem hitems fun u hu u' => ih u hu)
  | map _ ih =>
    obtain ⟨entries', rfl, hentries⟩ := alike_map.mp h
    exact toData_map_congr (forall₂_of_mem hentries fun e he e' h =>
      ⟨keyText_congr h.1, ih e he h.2⟩)
  | @text tag _ _ s =>
    obtain ⟨tag', _, rfl, htag, hpayload⟩ := alike_tagged.mp h
    obtain rfl : tag.spelling = tag' := htag
    rw [hpayload.eq_of_scalar (by simp [shape])]
  | @list tag _ hk _ _ ih =>
    obtain ⟨tag', _, rfl, htag, hpayload⟩ := alike_tagged.mp h
    obtain rfl : tag.spelling = tag' := htag
    obtain ⟨items', rfl, hitems⟩ := alike_seq.mp hpayload
    rw [toData_list hk, toData_list hk,
      toData_seq_congr (forall₂_of_mem hitems fun u hu u' => ih u hu)]

end Tree

end NestedStacks
