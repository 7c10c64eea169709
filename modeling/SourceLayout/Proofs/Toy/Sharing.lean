import SourceLayout.Proofs.Pass.Returns
import SourceLayout.Proofs.Toy.Strictness

/-! # Shared nodes of toy trees

A toy tree may be made so that nodes have several parents. Remembering their documents makes no
difference to what a pass comes to, only to how often it makes them.
-/

namespace SourceLayout.Toy

open Pass

theorem mirrors_languages :
    ∀ l ∈ languages, l.grammar.Mirrors ∧
      ∀ source tree, l.parse source = .ok tree → tree.RefersBack := by
  have hparse : ∀ source tree, language.parse source = .ok tree → tree.RefersBack := by
    intro source tree h
    have hparsed : parse source = .ok tree := by
      change ((parse source).mapError SyntaxError.message).mapError _ = _ at h
      cases hp : parse source with
      | error e =>
        rw [hp] at h
        cases h
      | ok t =>
        rw [hp] at h
        cases h
        rfl
    exact (parsed_of_parse hparsed).wellNested.earlier
  rw [languages_eq, List.forall_mem_cons, List.forall_mem_singleton]
  exact ⟨⟨mirrors_grammar false, hparse⟩, mirrors_grammar false, nofun⟩

/-- Remembering documents does not show. For every tree whose nodes refer only to earlier ones and
all options, a pass ends as one does that prints every node afresh: with the same failure, or with
a document of the same written form. And every node that it is asked for without flags has one
document, however often it is asked for: a pass that also tells of the documents it hands out again
does the same, and never tells of two documents for one node. -/
theorem layoutTree_shares_documents [TextWidth] {t : Tree} (ht : t.RefersBack) (skipDangling : Bool)
    (options : Options) :
    let cached := layoutTree (grammar skipDangling) languages options t
    let afresh := layoutBy .forget (grammar skipDangling) languages options t
    let telling := layoutBy .announce (grammar skipDangling) languages options t
    Concur (fun doc doc' => doc.compact cached.2.store = doc'.compact afresh.2.store ∧
        doc.spread cached.2.store = doc'.spread afresh.2.store) cached.1 afresh.1 ∧
      telling.1 = cached.1 ∧ telling.2.store = cached.2.store ∧
      ∀ n doc doc', ⟨none, .printed n doc⟩ ∈ telling.2.journal →
        ⟨none, .printed n doc'⟩ ∈ telling.2.journal → doc = doc' := by
  intro cached afresh telling
  have hg := mirrors_grammar skipDangling
  have hconcur := concur_layoutBy hg mirrors_languages ht options .reuse .forget
  rw [layoutBy_reuse] at hconcur
  obtain ⟨hresult, hstore⟩ : telling.1 = cached.1 ∧ telling.2.store = cached.2.store :=
    layoutBy_announce heedless_grammar heedless_languages
  refine ⟨hconcur.imp fun doc doc' h => ?_, hresult, hstore, fun n doc doc' =>
    layoutBy_announce_unique hg ht⟩
  rw [Doc.compact, Doc.compact, Doc.spread, Doc.spread, h]
  exact ⟨rfl, rfl⟩

def sharedList : Tree where
  source := .ofText "// c\n(a) %toy\x7bb\x7d".toList
  nodes := #[{ kind := "Ident", span := ⟨6, 7⟩, fields := [("name", .str ['a'])] },
    { kind := "List", span := ⟨5, 8⟩, fields :=
      [("items", .list [.node 0, .list [.node 0], .node 0])] },
    { kind := "Embed", span := ⟨9, 16⟩, fields :=
      [("lang", .str "toy".toList), ("code", .str ['b'])] },
    { kind := "Program", span := ⟨0, 16⟩, fields :=
      [("body", .list [.node 1, .node 2, .node 1, .node 0])] }]
  comments := #[⟨⟨0, 4⟩, .line, "// c".toList⟩]
  root := 3

def toldOf (s : Session) : List NodeId :=
  s.journal.filterMap fun
    | ⟨none, .printed n _⟩ => some n
    | _ => none

section Sample

attribute [local instance] TextWidth.perCharacter

theorem layoutTree_shares_documents_sharedList :
    sharedList.RefersBack ∧
      ∃ doc store doc' store', (layoutTree (grammar false) languages {} sharedList).1 = .ok doc ∧
        (layoutTree (grammar false) languages {} sharedList).2.store = store ∧
        (layoutBy .forget (grammar false) languages {} sharedList).1 = .ok doc' ∧
        (layoutBy .forget (grammar false) languages {} sharedList).2.store = store' ∧
        doc.compact store = doc'.compact store' ∧ store.next < store'.next ∧
        toldOf (layoutBy .announce (grammar false) languages {} sharedList).2 = [3, 0, 1, 2, 1, 0, 0] ∧
        ∀ n doc doc', ⟨none, .printed n doc⟩ ∈
            (layoutBy .announce (grammar false) languages {} sharedList).2.journal →
          ⟨none, .printed n doc'⟩ ∈
            (layoutBy .announce (grammar false) languages {} sharedList).2.journal → doc = doc' := by
  have ht : sharedList.RefersBack := by
    intro n m hm
    have hn : n < 4 := Tree.lt_size_of_mem_children hm
    have hchildren : ∀ n < 4, ∀ m ∈ (sharedList.node n).children, m < n := by decide
    exact hchildren n hn m hm
  obtain ⟨hconcur, -, -, hunique⟩ := layoutTree_shares_documents ht false {}
  have hok : (layoutTree (grammar false) languages {} sharedList).1.isOk = true := by
    decide +kernel
  have hnext : (layoutTree (grammar false) languages {} sharedList).2.store.next <
      (layoutBy .forget (grammar false) languages {} sharedList).2.store.next := by
    decide +kernel
  have htold : toldOf (layoutBy .announce (grammar false) languages {} sharedList).2 =
      [3, 0, 1, 2, 1, 0, 0] := by
    decide +kernel
  generalize hcached : (layoutTree (grammar false) languages {} sharedList).1 = cached at hconcur hok
  generalize hafresh : (layoutBy .forget (grammar false) languages {} sharedList).1 = afresh at hconcur
  cases hconcur with
  | error e => cases hok
  | ok h => exact ⟨ht, _, _, _, _, rfl, rfl, rfl, rfl, h.1, hnext, htold, hunique⟩

end Sample

end SourceLayout.Toy
