import Mathlib.Data.List.Sort
import SourceLayout.Span

/-! # Sorting once

Sorting is `List.insertionSort`, from which its order and its stability carry over. Where elements
with equal spans keep their order, a list can be sorted in one way only. Sorting pieces of it first
makes no difference then, and a list that is in order stays as it is.
-/

namespace SourceLayout

variable {α : Type} {key : α → Span} {as bs cs : List α}

theorem insertInto_eq_orderedInsert {le : α → α → Bool} {r : α → α → Prop} [DecidableRel r]
    (h : ∀ a b, le a b = true ↔ r a b) (a : α) (as : List α) :
    insertInto le a as = as.orderedInsert r a := by
  induction as with
  | nil => rfl
  | cons b bs ih => simp only [insertInto, List.orderedInsert_cons, h, ih]

theorem stableSort_eq_insertionSort {le : α → α → Bool} {r : α → α → Prop} [DecidableRel r]
    (h : ∀ a b, le a b = true ↔ r a b) (as : List α) :
    stableSort le as = as.insertionSort r := by
  induction as with
  | nil => rfl
  | cons a as ih => rw [stableSort, ih, insertInto_eq_orderedInsert h, List.insertionSort_cons]

theorem sortBySpan_eq_insertionSort (key : α → Span) (as : List α) :
    sortBySpan key as = as.insertionSort fun a b => (key a).le (key b) = true :=
  stableSort_eq_insertionSort (fun _ _ => .rfl) as

theorem perm_sortBySpan (key : α → Span) (as : List α) : (sortBySpan key as).Perm as := by
  rw [sortBySpan_eq_insertionSort]
  exact List.perm_insertionSort _ as

@[simp] theorem mem_sortBySpan {a : α} : a ∈ sortBySpan key as ↔ a ∈ as :=
  (perm_sortBySpan key as).mem_iff

theorem pairwise_sortBySpan (key : α → Span) (as : List α) :
    (sortBySpan key as).Pairwise fun a b => (key a).le (key b) := by
  have : IsTrans α fun a b => (key a).le (key b) = true :=
    ⟨fun a b c => Span.le_trans (key a) (key b) (key c)⟩
  have : Std.Total fun a b => (key a).le (key b) = true :=
    ⟨fun a b => by simpa using Span.le_total (key a) (key b)⟩
  rw [sortBySpan_eq_insertionSort]
  exact List.pairwise_insertionSort _ as

theorem Span.le_antisymm {s u : Span} (hsu : s.le u = true) (hus : u.le s = true) : s = u := by
  rw [Span.le_iff] at hsu hus
  cases s
  cases u
  simp only [Span.mk.injEq] at *
  omega

variable (key as bs) in
/-- `bs` is `as` in the order of the spans, and elements with equal spans are in the same order in
both. -/
structure StablySorts : Prop where
  perm : bs.Perm as
  ordered : bs.Pairwise fun a b => (key a).le (key b)
  stable : ∀ s, (bs.filter fun a => key a = s) = as.filter fun a => key a = s

theorem filter_sortBySpan (as : List α) (s : Span) :
    (sortBySpan key as).filter (fun a => key a = s) = as.filter fun a => key a = s := by
  have hordered : (as.filter fun a => key a = s).Pairwise fun a b => (key a).le (key b) := by
    refine List.pairwise_of_forall_mem_list fun a ha b hb => ?_
    rw [List.mem_filter, decide_eq_true_iff] at ha hb
    rw [ha.2, hb.2, Span.le_iff]
    omega
  have hkept : (as.filter fun a => key a = s).Sublist (sortBySpan key as) := by
    rw [sortBySpan_eq_insertionSort]
    exact List.sublist_insertionSort hordered List.filter_sublist
  have hfiltered := hkept.filter fun a => decide (key a = s)
  simp only [List.filter_filter, Bool.and_self] at hfiltered
  exact (hfiltered.eq_of_length ((perm_sortBySpan key as).filter _).length_eq.symm).symm

/-- Of two lists in order that have the same elements for each span, the first elements have the
same span. -/
theorem head_le_of_filter_eq {a b : α} (hbs : (b :: bs).Pairwise fun a b => (key a).le (key b))
    (h : ∀ s, ((a :: as).filter fun a => key a = s) = (b :: bs).filter fun a => key a = s) :
    (key b).le (key a) = true := by
  have ha : a ∈ (b :: bs).filter fun c => key c = key a := by
    rw [← h]
    simp
  rcases List.mem_cons.mp (List.mem_of_mem_filter ha) with rfl | ha
  · rw [Span.le_iff]
    omega
  · exact (List.pairwise_cons.mp hbs).1 a ha

theorem eq_of_filter_eq (hbs : bs.Pairwise fun a b => (key a).le (key b))
    (hcs : cs.Pairwise fun a b => (key a).le (key b))
    (h : ∀ s, (bs.filter fun a => key a = s) = cs.filter fun a => key a = s) : bs = cs := by
  induction bs generalizing cs with
  | nil =>
    cases cs with
    | nil => rfl
    | cons c cs => simpa using h (key c)
  | cons b bs ih =>
    cases cs with
    | nil => simpa using h (key b)
    | cons c cs =>
      have hkey : key b = key c := Span.le_antisymm (head_le_of_filter_eq hbs fun s => (h s).symm)
        (head_le_of_filter_eq hcs h)
      have hhead := h (key c)
      simp only [List.filter_cons, hkey, decide_true, if_true, List.cons.injEq] at hhead
      obtain ⟨rfl, -⟩ := hhead
      congr 1
      apply ih (List.pairwise_cons.mp hbs).2 (List.pairwise_cons.mp hcs).2
      intro s
      have hs := h s
      simp only [List.filter_cons] at hs
      split at hs
      · exact (List.cons.inj hs).2
      · exact hs

/-- There is one way to sort a list, which is the one of `sortBySpan`. -/
theorem eq_sortBySpan (hbs : bs.Pairwise fun a b => (key a).le (key b))
    (h : ∀ s, (bs.filter fun a => key a = s) = as.filter fun a => key a = s) :
    bs = sortBySpan key as :=
  eq_of_filter_eq hbs (pairwise_sortBySpan key as)
    fun s => (h s).trans (filter_sortBySpan as s).symm

theorem stablySorts_iff : StablySorts key as bs ↔ bs = sortBySpan key as := by
  constructor
  · intro h
    exact eq_sortBySpan h.ordered h.stable
  · rintro rfl
    exact ⟨perm_sortBySpan key as, pairwise_sortBySpan key as, filter_sortBySpan as⟩

theorem sortBySpan_eq_self (h : as.Pairwise fun a b => (key a).le (key b)) :
    sortBySpan key as = as := by
  rw [sortBySpan_eq_insertionSort]
  exact h.insertionSort_eq

end SourceLayout
