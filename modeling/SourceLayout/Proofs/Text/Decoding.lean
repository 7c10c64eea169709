import Mathlib.Algebra.Order.Ring.Nat
import Mathlib.Data.List.Basic
import SourceLayout.Text.Quoted

/-! # Texts that can be read back

Written numbers and quoted texts can be told from what follows them: a number ends where its digits
end, an escape shows where it ends, and a quoted text ends at the first quote that is not escaped.
-/

namespace SourceLayout

theorem append_inj_of_class {α : Type} {p : α → Bool} {xs ys rest rest' : List α}
    (hx : ∀ a ∈ xs, p a = true) (hy : ∀ a ∈ ys, p a = true) (hrest : ∀ a ∈ rest.head?, p a = false)
    (hrest' : ∀ a ∈ rest'.head?, p a = false) (h : xs ++ rest = ys ++ rest') :
    xs = ys ∧ rest = rest' := by
  induction xs generalizing ys with
  | nil =>
    cases ys with
    | nil => exact ⟨rfl, h⟩
    | cons b ys =>
      subst h
      simp [hy b] at hrest
  | cons a xs ih =>
    cases ys with
    | nil =>
      subst h
      simp [hx a] at hrest'
    | cons b ys =>
      rw [List.forall_mem_cons] at hx hy
      rw [List.cons_append, List.cons_append, List.cons.injEq] at h
      obtain ⟨rfl, h⟩ := h
      obtain ⟨rfl, rfl⟩ := ih hx.2 hy.2 h
      exact ⟨rfl, rfl⟩

/-! ## Digits -/

section Digits

variable {b n m : Nat} {c : Char}

theorem digitChar_inj (hn : n < 16) (hm : m < 16) (h : n.digitChar = m.digitChar) : n = m := by
  have hall : ∀ n < 16, ∀ m < 16, n.digitChar = m.digitChar → n = m := by decide
  exact hall n hn m hm h

theorem toDigits_div_mod (hb : 1 < b) (h : b ≤ n) :
    Nat.toDigits b n = Nat.toDigits b (n / b) ++ [(n % b).digitChar] := by
  rw [Nat.toDigits_of_base_le hb h]

theorem exists_digit_of_mem_toDigits (hb : 1 < b) (h : c ∈ Nat.toDigits b n) :
    ∃ d < b, c = d.digitChar := by
  induction n using Nat.strongRecOn with
  | ind n ih =>
    rcases Nat.lt_or_ge n b with hn | hn
    · rw [Nat.toDigits_of_lt_base hn, List.mem_singleton] at h
      exact ⟨n, hn, h⟩
    · rw [toDigits_div_mod hb hn, List.mem_append, List.mem_singleton] at h
      rcases h with h | h
      · exact ih (n / b) (Nat.div_lt_self (by omega) hb) h
      · exact ⟨n % b, Nat.mod_lt n (by omega), h⟩

theorem toDigits_inj (hb : 1 < b) (hb' : b ≤ 16) (h : Nat.toDigits b n = Nat.toDigits b m) :
    n = m := by
  induction n using Nat.strongRecOn generalizing m with
  | ind n ih =>
    have hmod : ∀ k, k % b < 16 := fun k => Nat.lt_of_lt_of_le (Nat.mod_lt k (by omega)) hb'
    rcases Nat.lt_or_ge n b with hn | hn
    · rcases Nat.lt_or_ge m b with hm | hm
      · rw [Nat.toDigits_of_lt_base hn, Nat.toDigits_of_lt_base hm, List.cons.injEq] at h
        exact digitChar_inj (by omega) (by omega) h.1
      · rw [Nat.toDigits_of_lt_base hn, toDigits_div_mod hb hm] at h
        have hlength := congrArg List.length h
        have hpos := Nat.length_toDigits_pos (b := b) (n := m / b)
        simp only [List.length_append, List.length_singleton] at hlength
        omega
    · rcases Nat.lt_or_ge m b with hm | hm
      · rw [Nat.toDigits_of_lt_base hm, toDigits_div_mod hb hn] at h
        have hlength := congrArg List.length h
        have hpos := Nat.length_toDigits_pos (b := b) (n := n / b)
        simp only [List.length_append, List.length_singleton] at hlength
        omega
      · rw [toDigits_div_mod hb hn, toDigits_div_mod hb hm] at h
        obtain ⟨hdiv, hlast⟩ := List.append_inj' h rfl
        rw [List.cons.injEq] at hlast
        have hquotient := ih (n / b) (Nat.div_lt_self (by omega) hb) hdiv
        have hdigit := digitChar_inj (hmod n) (hmod m) hlast.1
        calc n = b * (n / b) + n % b := (Nat.div_add_mod n b).symm
          _ = b * (m / b) + m % b := by rw [hquotient, hdigit]
          _ = m := Nat.div_add_mod m b

end Digits

namespace Text

variable {t t' rest rest' : Text} {c c' : Char}

/-! ## Numbers -/

theorem isDigit_of_mem_ofNat {n : Nat} (h : c ∈ ofNat n) : c.isDigit = true :=
  Nat.isDigit_of_mem_toDigits (by decide) (by decide) h

theorem ofNat_append_inj {n m : Nat} (hrest : ∀ c ∈ rest.head?, c.isDigit = false)
    (hrest' : ∀ c ∈ rest'.head?, c.isDigit = false) (h : ofNat n ++ rest = ofNat m ++ rest') :
    n = m ∧ rest = rest' := by
  obtain ⟨hdigits, hrest⟩ := append_inj_of_class (fun _ => isDigit_of_mem_ofNat)
    (fun _ => isDigit_of_mem_ofNat) hrest hrest' h
  exact ⟨toDigits_inj (by decide) (by decide) hdigits, hrest⟩

theorem exists_ofNat_eq_cons (n : Nat) : ∃ c t, ofNat n = c :: t ∧ c.isDigit = true := by
  obtain ⟨c, t, ht⟩ := List.exists_cons_of_ne_nil (Nat.toDigits_ne_nil (n := n) (b := 10))
  refine ⟨c, t, ht, isDigit_of_mem_ofNat (n := n) ?_⟩
  rw [ofNat, ht]
  exact List.mem_cons_self

theorem exists_ofInt_eq_cons (n : Int) :
    ∃ c t, ofInt n = c :: t ∧ (c = '-' ∨ c.isDigit = true) := by
  cases n with
  | ofNat n =>
    obtain ⟨c, t, ht, hc⟩ := exists_ofNat_eq_cons n
    exact ⟨c, t, ht, .inr hc⟩
  | negSucc n => exact ⟨'-', ofNat (n + 1), rfl, .inl rfl⟩

theorem ofInt_append_inj {n m : Int} (hrest : ∀ c ∈ rest.head?, c.isDigit = false)
    (hrest' : ∀ c ∈ rest'.head?, c.isDigit = false) (h : ofInt n ++ rest = ofInt m ++ rest') :
    n = m ∧ rest = rest' := by
  have hsign :
      ∀ (n : Nat) (t : Text), ofNat n ++ rest ≠ '-' :: t ∧ ofNat n ++ rest' ≠ '-' :: t := by
    intro n t
    obtain ⟨c, u, hu, hc⟩ := exists_ofNat_eq_cons n
    have hne : c ≠ '-' := by
      rintro rfl
      exact absurd hc (by decide)
    rw [hu]
    simp [hne]
  cases n with
  | ofNat n =>
    cases m with
    | ofNat m =>
      obtain ⟨rfl, hrest⟩ := ofNat_append_inj hrest hrest' h
      exact ⟨rfl, hrest⟩
    | negSucc m => exact absurd h (hsign n _).1
  | negSucc n =>
    cases m with
    | ofNat m => exact absurd h.symm (hsign m _).2
    | negSucc m =>
      rw [ofInt, ofInt, List.cons_append, List.cons_append, List.cons.injEq] at h
      obtain ⟨hnm, hrest⟩ := ofNat_append_inj hrest hrest' h.2
      rw [Nat.succ.inj hnm]
      exact ⟨rfl, hrest⟩

/-! ## Quoted texts -/

theorem toDigits_brace_inj {n m : Nat}
    (h : Nat.toDigits 16 n ++ '\x7d' :: rest = Nat.toDigits 16 m ++ '\x7d' :: rest') :
    n = m ∧ rest = rest' := by
  have hclass : ∀ n, ∀ c ∈ Nat.toDigits 16 n, (c != '\x7d') = true := by
    intro n c hc
    obtain ⟨d, hd, rfl⟩ := exists_digit_of_mem_toDigits (by decide) hc
    have hall : ∀ d < 16, (d.digitChar != '\x7d') = true := by decide
    exact hall d hd
  obtain ⟨hdigits, htail⟩ := append_inj_of_class (hclass n) (hclass m) (by simp) (by simp) h
  exact ⟨toDigits_inj (by decide) (by decide) hdigits, (List.cons.inj htail).2⟩

def shortEscapes : List (Char × Char) :=
  [('\x00', '0'), ('\t', 't'), ('\r', 'r'), ('\n', 'n'), ('"', '"'), ('\\', '\\')]

theorem escape_cases (c : Char) :
    (escape c = [c] ∧ c ≠ '"' ∧ c ≠ '\\') ∨
    (∃ a, (c, a) ∈ shortEscapes ∧ escape c = ['\\', a]) ∨
    escape c = '\\' :: 'u' :: '\x7b' :: (Nat.toDigits 16 c.toNat ++ ['\x7d']) := by
  generalize hescape : escape c = e
  unfold escape at hescape
  generalize isShown c = shown at hescape
  split_ifs at hescape <;> subst hescape <;> simp_all [shortEscapes]

theorem exists_escape_eq_cons (c : Char) : ∃ a t, escape c = a :: t ∧ a ≠ '"' := by
  rcases escape_cases c with ⟨h, hc, -⟩ | ⟨a, -, h⟩ | h
  · exact ⟨c, [], h, hc⟩
  · exact ⟨'\\', [a], h, by decide⟩
  · exact ⟨'\\', _, h, by decide⟩

/-- An escape shows where it ends. -/
theorem escape_append_inj (h : escape c ++ rest = escape c' ++ rest') : c = c' ∧ rest = rest' := by
  have hshort : ∀ p ∈ shortEscapes, p.2 ≠ 'u' ∧ ∀ q ∈ shortEscapes, p.2 = q.2 → p = q := by decide
  rcases escape_cases c with ⟨he, -, hc⟩ | ⟨a, ha, he⟩ | he
  · rcases escape_cases c' with ⟨he', -, hc'⟩ | ⟨a', ha', he'⟩ | he'
    · simpa [he, he'] using h
    · simp [he, he', hc] at h
    · simp [he, he', hc] at h
  · rcases escape_cases c' with ⟨he', -, hc'⟩ | ⟨a', ha', he'⟩ | he'
    · simp [he, he', hc'.symm] at h
    · obtain ⟨rfl, hrest⟩ : a = a' ∧ rest = rest' := by simpa [he, he'] using h
      exact ⟨congrArg Prod.fst ((hshort _ ha).2 _ ha' rfl), hrest⟩
    · simp [he, he', (hshort _ ha).1] at h
  · rcases escape_cases c' with ⟨he', -, hc'⟩ | ⟨a', ha', he'⟩ | he'
    · simp [he, he', hc'.symm] at h
    · simp [he, he', (hshort _ ha').1.symm] at h
    · obtain ⟨hcode, hrest⟩ := toDigits_brace_inj (by simpa [he, he'] using h)
      exact ⟨Char.toNat_inj.mp hcode, hrest⟩

/-- A quoted text ends at the first quote that is not escaped. -/
theorem quote_append_inj (h : quote t ++ rest = quote t' ++ rest') : t = t' ∧ rest = rest' := by
  have hbody :
      ∀ t t', List.flatMap escape t ++ '"' :: rest = List.flatMap escape t' ++ '"' :: rest' →
      t = t' ∧ rest = rest' := by
    intro t
    induction t with
    | nil =>
      rintro (_ | ⟨c, t'⟩) h
      · exact ⟨rfl, (List.cons.inj h).2⟩
      · obtain ⟨a, u, hu, ha⟩ := exists_escape_eq_cons c
        simp [hu, ha.symm] at h
    | cons c t ih =>
      rintro (_ | ⟨c', t'⟩) h
      · obtain ⟨a, u, hu, ha⟩ := exists_escape_eq_cons c
        simp [hu, ha] at h
      · rw [List.flatMap_cons, List.flatMap_cons, List.append_assoc, List.append_assoc] at h
        obtain ⟨rfl, htail⟩ := escape_append_inj h
        obtain ⟨rfl, hrest⟩ := ih t' htail
        exact ⟨rfl, hrest⟩
  apply hbody
  simpa [quote] using h

end Text

end SourceLayout
