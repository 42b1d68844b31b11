/-
Placeholders by where they stand in an expression.

A placeholder is a name in braces behind a dollar sign, with an even number of backslashes in
front.  The scanner finds exactly those, wherever they stand:

* `Piece.lex_append_placeholder` — an expression is scanned in front of, at, and behind any of them;
* `retargetExpression_append_placeholder` — and it is renamed so.
-/
import NestedStacks.Proofs.Renaming.Names

namespace NestedStacks

namespace Piece

/-- Whether `cs` ends with an odd number of backslashes. -/
def endsEscaped (cs : List Char) : Bool := (cs.reverse.takeWhile (· == '\\')).length % 2 == 1

/-- `IsName name`: `name` may stand between the braces of a placeholder. -/
def IsName (name : List Char) : Prop :=
  ∃ c rest, name = c :: rest ∧ isNameStart c = true ∧ ∀ d ∈ rest, isNameChar d = true

@[simp] theorem endsEscaped_nil : endsEscaped [] = false := rfl

theorem endsEscaped_concat (cs : List Char) (c : Char) :
    endsEscaped (cs ++ [c]) = (c == '\\' && !endsEscaped cs) := by
  unfold endsEscaped
  rw [List.reverse_append, List.reverse_singleton, List.singleton_append]
  by_cases hc : c = '\\'
  · simp only [hc, List.takeWhile_cons, beq_self_eq_true, if_true, List.length_cons, Bool.true_and]
    rcases Nat.mod_two_eq_zero_or_one (cs.reverse.takeWhile (· == '\\')).length with h | h
    · simp [Nat.add_mod, h]
    · simp [Nat.add_mod, h]
  · simp [hc]

theorem isNameChar_of_isNameStart {c : Char} (h : isNameStart c = true) : isNameChar c = true := by
  simp only [isNameStart, isNameChar, Char.isAlphanum, Bool.or_eq_true] at h ⊢
  rcases h with h | h <;> simp [h]

theorem IsName.all {name : List Char} (h : IsName name) : ∀ d ∈ name, isNameChar d = true := by
  obtain ⟨c, rest, rfl, hc, hrest⟩ := h
  intro d hd
  rcases List.mem_cons.mp hd with rfl | hd
  · exact isNameChar_of_isNameStart hc
  · exact hrest d hd

/-- A `name` in its braces holds only characters of names: no other `c` but the braces is in
there. -/
theorem IsName.not_mem_braced {name : List Char} (h : IsName name) {c : Char}
    (hc : isNameChar c = false) (hopen : c ≠ '\x7b') (hclose : c ≠ '\x7d') :
    c ∉ '\x7b' :: name ++ ['\x7d'] := by
  intro hmem
  simp only [List.cons_append, List.mem_cons, List.mem_append, List.not_mem_nil, or_false] at hmem
  rcases hmem with hmem | hmem | hmem
  · exact hopen hmem
  · simp [h.all c hmem] at hc
  · exact hclose hmem

/-- A `name` in front of a closing brace is what is taken while there are characters of names. -/
theorem takeWhile_isNameChar {name : List Char} (h : ∀ d ∈ name, isNameChar d = true)
    (after : List Char) : (name ++ '\x7d' :: after).takeWhile isNameChar = name := by
  rw [List.takeWhile_append_of_pos h, List.takeWhile_cons]
  simp [show isNameChar '\x7d' = false by decide]

/-- The text `cs` starts with a placeholder of `name` when it starts with `name` in braces. -/
theorem name?_eq_some {cs name : List Char} :
    name? cs = some name ↔ IsName name ∧ ∃ after, cs = text (.placeholder name) ++ after := by
  constructor
  · intro h
    obtain ⟨after, rfl⟩ := eq_of_name? h
    refine ⟨?_, after, rfl⟩
    simp only [text, name?, List.cons_append, List.append_assoc, List.nil_append] at h
    split at h
    · rename_i hc
      rw [Bool.and_eq_true] at hc
      have htake := Option.some.inj h
      rw [htake] at hc
      have hall : ∀ d ∈ name, isNameChar d = true := by
        intro d hd
        rw [← htake] at hd
        exact List.all_eq_true.mp List.all_takeWhile d hd
      cases name with
      | nil => simp at hc
      | cons c rest => exact ⟨c, rest, rfl, by simpa using hc.1, fun d hd => hall d (by simp [hd])⟩
    · cases h
  · rintro ⟨hname, after, rfl⟩
    obtain ⟨c, rest, rfl, hc, -⟩ := id hname
    have htake := takeWhile_isNameChar hname.all after
    simp only [List.cons_append] at htake
    simp [name?, text, htake, hc]

/-- A dollar sign behind some text `cs` has no part in a placeholder that starts in `cs`. -/
theorem name?_append_dollar {cs : List Char} (hcs : cs ≠ []) (rest : List Char) :
    name? (cs ++ '$' :: rest) = name? cs := by
  apply Option.ext
  intro name
  rw [name?_eq_some, name?_eq_some]
  refine and_congr_right fun hname => ⟨?_, ?_⟩
  · rintro ⟨after, h⟩
    rcases List.append_eq_append_iff.mp h with ⟨as, has, hrest⟩ | ⟨bs, rfl, -⟩
    · rcases as with _ | ⟨a, as⟩
      · exact ⟨[], by simpa using has.symm⟩
      · -- then the dollar sign would be a character of the name
        exfalso
        obtain ⟨c, cs, rfl⟩ := List.exists_cons_of_ne_nil hcs
        obtain rfl : '$' = a := by simpa using congrArg List.head? hrest
        refine hname.not_mem_braced (c := '$') (by decide) (by decide) (by decide) ?_
        simp only [text, List.cons_append, List.cons.injEq] at has
        simp only [List.cons_append]
        rw [has.2]
        simp
    · exact ⟨bs, rfl⟩
  · rintro ⟨after, rfl⟩
    exact ⟨after ++ '$' :: rest, by simp⟩

/-! ### Scanning in parts -/

theorem lexFrom_skip (front behind : List Char) :
    lexFrom false front.length (front ++ behind) = lexFrom false 0 behind := by
  induction front with
  | nil => rfl
  | cons c front ih => simpa [lexFrom] using ih

/-- Scanning up to a dollar sign and from there on.  The invariant ties the state of the scanner
to the text `seen` so far: within a placeholder no backslash is to come, and outside of one the flag
tells how `seen` ends. -/
theorem lexFrom_append_dollar (cs rest seen : List Char) (escaped : Bool) (skip : Nat)
    (hskip : skip ≤ cs.length) (hout : skip = 0 → escaped = endsEscaped seen)
    (hin : ∀ d ∈ cs.take skip, d ≠ '\\') :
    lexFrom escaped skip (cs ++ '$' :: rest) =
      lexFrom escaped skip cs ++ lexFrom (endsEscaped (seen ++ cs)) 0 ('$' :: rest) := by
  induction cs generalizing seen escaped skip with
  | nil =>
    obtain rfl : skip = 0 := by simpa using hskip
    simp [hout rfl, lexFrom]
  | cons c cs ih =>
    have hseen : seen ++ c :: cs = (seen ++ [c]) ++ cs := by simp
    rw [hseen, List.cons_append]
    cases skip with
    | succ skip =>
      rw [lexFrom, lexFrom]
      refine ih (seen ++ [c]) false skip (by simpa using hskip) (fun _ => ?_) fun d hd => ?_
      · rw [endsEscaped_concat]
        simp [hin c (by simp)]
      · exact hin d (by simp [hd])
    | zero =>
      have hname : (if escaped then none else name? (c :: (cs ++ '$' :: rest))) =
          if escaped then none else name? (c :: cs) := by
        rw [← List.cons_append, name?_append_dollar (List.cons_ne_nil c cs)]
      simp only [lexFrom, hname]
      cases hn : (if escaped then none else name? (c :: cs)) with
      | none =>
        simp only [List.cons_append, List.cons.injEq, true_and]
        refine ih (seen ++ [c]) _ 0 (by simp) (fun _ => ?_) (by simp)
        rw [endsEscaped_concat, hout rfl]
      | some name =>
        obtain ⟨hisName, after, hcs⟩ : IsName name ∧ ∃ after,
            c :: cs = text (.placeholder name) ++ after := by
          cases escaped with
          | true => simp at hn
          | false => exact name?_eq_some.mp hn
        obtain ⟨rfl, rfl⟩ : c = '$' ∧ cs = ('\x7b' :: name ++ ['\x7d']) ++ after := by
          simpa [text] using hcs
        simp only [List.cons_append, List.cons.injEq, true_and]
        refine ih (seen ++ ['$']) false (name.length + 2) (by simp) (by simp) ?_
        intro d hd hback
        rw [List.take_left' (by simp)] at hd
        subst hback
        exact hisName.not_mem_braced (by decide) (by decide) (by decide) hd

/-- An expression is scanned apart in front of, at, and behind any placeholder of a `name` that is
not escaped by `before`. -/
theorem lex_append_placeholder {before name : List Char} (hbefore : endsEscaped before = false)
    (hname : IsName name) (after : List Char) :
    lex (before ++ text (.placeholder name) ++ after) =
      lex before ++ .placeholder name :: lex after := by
  have hstart : name? ('$' :: '\x7b' :: name ++ '\x7d' :: after) = some name :=
    name?_eq_some.mpr ⟨hname, after, by simp [text]⟩
  have hskip := lexFrom_skip ('\x7b' :: name ++ ['\x7d']) after
  have happ := lexFrom_append_dollar before ('\x7b' :: name ++ '\x7d' :: after) [] false 0
    (by simp) (by simp) (by simp)
  simp only [lex, text, List.append_assoc, List.cons_append, List.nil_append] at *
  rw [happ, hbefore, lexFrom]
  simp only [Bool.false_eq_true, if_false, hstart]
  simpa using hskip

end Piece

/-- An expression is renamed apart in front of, at, and behind any placeholder of a `name` that is
not escaped by `before`. -/
theorem retargetExpression_append_placeholder (locals : Entries) (ctx : Context)
    {before name : List Char} (hbefore : Piece.endsEscaped before = false)
    (hname : Piece.IsName name) (after : List Char) :
    retargetExpression locals ctx
        (String.ofList (before ++ Piece.text (.placeholder name) ++ after)) =
      retargetExpression locals ctx (String.ofList before) ++ retargetPlaceholder locals ctx name ++
        retargetExpression locals ctx (String.ofList after) := by
  simp only [retargetExpression, String.toList_ofList]
  rw [Piece.lex_append_placeholder hbefore hname, List.map_append, List.map_cons,
    String.join_append, String.join_cons, String.append_assoc]
  rfl

end NestedStacks
