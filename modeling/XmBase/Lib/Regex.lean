import Mathlib.Computability.RegularExpressions
/-!
# XmBase.Lib.Regex

The shorthands of everyday patterns over Mathlib's `RegularExpression`: a class of
characters, an optional part and a repetition, each with what it matches.
-/

namespace XmBase.Regex

open RegularExpression

variable {α : Type*}

/-- `[cs]`. Mathlib's expressions have single characters only. -/
def oneOf (cs : List α) : RegularExpression α := cs.foldr (fun c r => char c + r) 0

/-- `r?`. -/
def opt (r : RegularExpression α) : RegularExpression α := 1 + r

/-- `r+`. At least one, so that a repetition of nothing is no match. -/
def many (r : RegularExpression α) : RegularExpression α := r * star r

variable {cs s : List α}

theorem mem_oneOf : s ∈ (oneOf cs).matches' ↔ ∃ c ∈ cs, s = [c] := by
  induction cs with
  | nil =>
      constructor
      · intro h
        cases h
      · rintro ⟨c, hc, -⟩
        cases hc
  | cons d cs ih =>
      have hcons : s ∈ (oneOf (d :: cs)).matches' ↔ s = [d] ∨ s ∈ (oneOf cs).matches' := Iff.rfl
      rw [hcons, ih, List.exists_mem_cons_iff]

theorem mem_opt {r : RegularExpression α} : s ∈ (opt r).matches' ↔ s = [] ∨ s ∈ r.matches' :=
  Iff.rfl

/-- The characters of a repetition are all of the class. -/
theorem mem_star_oneOf : s ∈ (star (oneOf cs)).matches' ↔ ∀ c ∈ s, c ∈ cs := by
  rw [matches'_star, Language.mem_kstar]
  constructor
  · rintro ⟨words, rfl, hwords⟩ c hc
    obtain ⟨word, hword, hc⟩ := List.mem_flatten.mp hc
    obtain ⟨d, hd, rfl⟩ := mem_oneOf.mp (hwords word hword)
    obtain rfl := List.mem_singleton.mp hc
    exact hd
  · intro h
    refine ⟨s.map fun c => [c], ?_, ?_⟩
    · rw [← List.flatMap_def, List.flatMap_singleton']
    · intro word hword
      obtain ⟨c, hc, rfl⟩ := List.mem_map.mp hword
      exact mem_oneOf.mpr ⟨c, h c hc, rfl⟩

theorem mem_many_oneOf :
    s ∈ (many (oneOf cs)).matches' ↔ ∃ d ds, (∀ c ∈ d :: ds, c ∈ cs) ∧ s = d :: ds := by
  rw [many, matches'_mul, Language.mem_mul]
  constructor
  · rintro ⟨first, hfirst, ds, hds, rfl⟩
    obtain ⟨d, hd, rfl⟩ := mem_oneOf.mp hfirst
    exact ⟨d, ds, List.forall_mem_cons.mpr ⟨hd, mem_star_oneOf.mp hds⟩, rfl⟩
  · rintro ⟨d, ds, hall, rfl⟩
    obtain ⟨hd, hds⟩ := List.forall_mem_cons.mp hall
    exact ⟨[d], mem_oneOf.mpr ⟨d, hd, rfl⟩, ds, mem_star_oneOf.mpr hds, rfl⟩

end XmBase.Regex
