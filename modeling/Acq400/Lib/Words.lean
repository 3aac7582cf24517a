/-
Words in a text, and `strstr`.

The words are separated by spaces.  A needle that has no space in it is found where it is in one of
the words, however the words are ordered, and what is behind that word begins with a space or ends
the text.
-/
import Mathlib.Data.List.Infix

namespace Words

/-- `strstr`: the text from where the needle is first. -/
def strstr (needle : List Char) : List Char → Option (List Char)
  | [] => if needle = [] then some [] else none
  | c :: text => if needle.isPrefixOf (c :: text) then some (c :: text) else strstr needle text

/-- What may stand behind the last word. -/
def ends : List (List Char) := [[], ['\n']]

/-- The words with a space between them. -/
def unwords (tail : List Char) : List (List Char) → List Char
  | [] => tail
  | [w] => w ++ tail
  | w :: v :: ws => w ++ ' ' :: unwords tail (v :: ws)

/-- What may stand behind a word. -/
def Stop (rest : List Char) : Prop := rest ∈ ends ∨ ∃ more, rest = ' ' :: more

variable {needle w text tail found rest : List Char} {ws : List (List Char)}

theorem Stop.head (h : Stop rest) {c : Char} (hc : rest.head? = some c) : c = ' ' ∨ c = '\n' := by
  rcases h with hend | ⟨more, rfl⟩
  · rcases List.mem_pair.mp hend with rfl | rfl
    · cases hc
    · exact .inr (Option.some.inj hc).symm
  · exact .inl (Option.some.inj hc).symm

theorem unwords_cons (tail w : List Char) (ws : List (List Char)) :
    unwords tail (w :: ws) = w ++ if ws = [] then tail else ' ' :: unwords tail ws := by
  cases ws with
  | nil => rfl
  | cons v ws => rfl

/-! ### Searching -/

theorem strstr_eq_none : strstr needle text = none ↔ ¬needle <:+: text := by
  induction text with
  | nil =>
      unfold strstr
      rw [List.infix_nil]
      split
      · rename_i h
        simp [h]
      · rename_i h
        exact ⟨fun _ => h, fun _ => rfl⟩
  | cons c text ih =>
      unfold strstr
      rw [List.infix_cons_iff, ← List.isPrefixOf_iff_prefix]
      split
      · rename_i h
        simp [h]
      · rename_i h
        rw [ih]
        exact ⟨fun hn ho => ho.elim h hn, fun hn hi => hn (.inr hi)⟩

/-- What has not all the letters of the needle has not the needle. -/
theorem strstr_none_of_letter {c : Char} (hc : c ∈ needle) (h : c ∉ text) :
    strstr needle text = none :=
  strstr_eq_none.mpr fun hin => h (List.IsInfix.mem hc hin)

theorem strstr_prefix (h : needle ≠ []) (rest : List Char) :
    strstr needle (needle ++ rest) = some (needle ++ rest) := by
  obtain ⟨c, cs, rfl⟩ := List.exists_cons_of_ne_nil h
  rw [List.cons_append, strstr, if_pos]
  exact List.isPrefixOf_iff_prefix.mpr (List.prefix_append _ rest)

theorem strstr_eq_some (h : strstr needle text = some found) : ∃ rest, found = needle ++ rest := by
  induction text with
  | nil =>
      unfold strstr at h
      obtain ⟨rfl, hnil⟩ := Option.ite_none_right_eq_some.mp h
      exact ⟨found, rfl⟩
  | cons c text ih =>
      unfold strstr at h
      split at h
      · rename_i hpre
        obtain ⟨rest, hrest⟩ := List.isPrefixOf_iff_prefix.mp hpre
        exact ⟨rest, (Option.some.inj h).symm.trans hrest.symm⟩
      · exact ih h

/-- What is behind a letter that the needle has not does not count. -/
theorem prefix_break {b : Char} (hb : b ∉ needle) (rest : List Char) :
    needle <+: w ++ b :: rest ↔ needle <+: w := by
  constructor
  · intro h
    have hw : w ++ [b] <+: w ++ b :: rest := by
      rw [List.prefix_append_right_inj]
      exact ⟨rest, rfl⟩
    have hmem : b ∈ w ++ [b] := List.mem_append_right w List.mem_cons_self
    rcases List.prefix_or_prefix_of_prefix h hw with hn | hn
    · rcases List.prefix_concat_iff.mp hn with rfl | hn
      · exact absurd hmem hb
      · exact hn
    · exact absurd (hn.mem hmem) hb
  · intro h
    exact h.trans (List.prefix_append w _)

theorem strstr_break {b : Char} (hne : needle ≠ []) (hb : b ∉ needle) (w rest : List Char) :
    strstr needle (w ++ b :: rest) =
      match strstr needle w with
      | some found => some (found ++ b :: rest)
      | none => strstr needle rest := by
  have hpre : ∀ w : List Char, needle.isPrefixOf (w ++ b :: rest) = needle.isPrefixOf w := by
    intro w
    rw [Bool.eq_iff_iff, List.isPrefixOf_iff_prefix, List.isPrefixOf_iff_prefix, prefix_break hb]
  induction w with
  | nil =>
      have hnil : ¬needle.isPrefixOf [] = true := by
        rw [List.isPrefixOf_iff_prefix, List.prefix_nil]
        exact hne
      have hempty : strstr needle [] = none := if_neg hne
      have h := hpre []
      rw [List.nil_append] at h
      have hbreak : strstr needle (b :: rest) = strstr needle rest := by
        rw [← h] at hnil
        exact if_neg hnil
      rw [List.nil_append, hbreak, hempty]
  | cons c w ih =>
      have h := hpre (c :: w)
      rw [List.cons_append] at h
      rw [List.cons_append, strstr, h, strstr, ih]
      split
      · rfl
      · rfl

/-- A needle without white space is in one of the words, or nowhere. -/
theorem strstr_unwords (hne : needle ≠ []) (hspace : ' ' ∉ needle) (hline : '\n' ∉ needle)
    (htail : tail ∈ ends) (ws : List (List Char)) :
    strstr needle (unwords tail ws) = none ∧ (∀ w ∈ ws, strstr needle w = none) ∨
      ∃ w ∈ ws, ∃ found rest, strstr needle w = some found ∧ Stop rest ∧
        strstr needle (unwords tail ws) = some (found ++ rest) := by
  have hempty : strstr needle [] = none := if_neg hne
  have hend : ∀ w, strstr needle (w ++ tail) =
      (strstr needle w).map fun found => found ++ tail := by
    intro w
    rcases List.mem_pair.mp htail with rfl | rfl
    · simp
    · rw [strstr_break hne hline]
      cases strstr needle w with
      | none => exact hempty
      | some found => rfl
  induction ws with
  | nil =>
      refine .inl ⟨?_, fun w hw => absurd hw List.not_mem_nil⟩
      have h := hend []
      rw [hempty] at h
      exact h
  | cons w ws ih =>
      rw [unwords_cons]
      by_cases hws : ws = []
      · subst hws
        rw [if_pos rfl, hend]
        cases hw : strstr needle w with
        | none => exact .inl ⟨rfl, fun v hv => List.mem_singleton.mp hv ▸ hw⟩
        | some found =>
            exact .inr ⟨w, List.mem_cons_self, found, tail, hw, Or.inl htail, rfl⟩
      · rw [if_neg hws, strstr_break hne hspace]
        cases hw : strstr needle w with
        | none =>
            rcases ih with ⟨hnone, hall⟩ | ⟨v, hv, found, rest, hfound, hstop, htext⟩
            · refine .inl ⟨hnone, fun v hv => ?_⟩
              rcases List.mem_cons.mp hv with rfl | hv
              · exact hw
              · exact hall v hv
            · exact .inr ⟨v, List.mem_cons_of_mem w hv, found, rest, hfound, hstop, htext⟩
        | some found =>
            exact .inr ⟨w, List.mem_cons_self, found, _, hw, Or.inr ⟨_, rfl⟩, rfl⟩

/-! ### Words that stand for something -/

section

variable {α κ : Type*} {txt : α → List Char} {kind : α → κ} [DecidableEq κ] {ws : List α}

theorem strstr_map (txt : α → List Char) (hne : needle ≠ []) (hspace : ' ' ∉ needle)
    (hline : '\n' ∉ needle) (htail : tail ∈ ends) (ws : List α) :
    strstr needle (unwords tail (ws.map txt)) = none ∧ (∀ w ∈ ws, strstr needle (txt w) = none) ∨
      ∃ w ∈ ws, ∃ found rest, strstr needle (txt w) = some found ∧ Stop rest ∧
        strstr needle (unwords tail (ws.map txt)) = some (found ++ rest) := by
  rcases strstr_unwords hne hspace hline htail (ws.map txt) with
    ⟨hnone, hall⟩ | ⟨v, hv, found, rest, hfound, hstop, htext⟩
  · exact .inl ⟨hnone, fun w hw => hall _ (List.mem_map_of_mem hw)⟩
  · obtain ⟨w, hw, rfl⟩ := List.mem_map.mp hv
    exact .inr ⟨w, hw, found, rest, hfound, hstop, htext⟩

/-- A needle is found if it is in one of the words, however they are ordered. -/
theorem strstr_map_ne_none (hne : needle ≠ []) (hspace : ' ' ∉ needle) (hline : '\n' ∉ needle)
    (htail : tail ∈ ends) :
    strstr needle (unwords tail (ws.map txt)) ≠ none ↔
      ∃ w ∈ ws, strstr needle (txt w) ≠ none := by
  rcases strstr_map txt hne hspace hline htail ws with
    ⟨hnone, hall⟩ | ⟨w, hw, found, rest, hfound, -, htext⟩
  · refine iff_of_false (fun hn => hn hnone) ?_
    rintro ⟨w, hw, hn⟩
    exact hn (hall w hw)
  · refine iff_of_true ?_ ⟨w, hw, ?_⟩
    · rw [htext]
      exact Option.some_ne_none _
    · rw [hfound]
      exact Option.some_ne_none _

theorem strstr_map_kind (hne : needle ≠ []) (hspace : ' ' ∉ needle) (hline : '\n' ∉ needle)
    (htail : tail ∈ ends) {k : κ} (hkind : ∀ w ∈ ws,
      strstr needle (txt w) = if kind w = k then some (txt w) else none) :
    strstr needle (unwords tail (ws.map txt)) = none ∧ (∀ w ∈ ws, kind w ≠ k) ∨
      ∃ w ∈ ws, kind w = k ∧ ∃ rest, Stop rest ∧
        strstr needle (unwords tail (ws.map txt)) = some (txt w ++ rest) := by
  rcases strstr_map txt hne hspace hline htail ws with
    ⟨hnone, hall⟩ | ⟨w, hw, found, rest, hfound, hstop, htext⟩
  · refine .inl ⟨hnone, fun w hw hk => ?_⟩
    have hword := hall w hw
    rw [hkind w hw, if_pos hk] at hword
    cases hword
  · rw [hkind w hw] at hfound
    obtain ⟨hk, hfound⟩ := Option.ite_none_right_eq_some.mp hfound
    obtain rfl := Option.some.inj hfound
    exact .inr ⟨w, hw, hk, rest, hstop, htext⟩

end

end Words
