import Mathlib.Data.List.Nodup
import ThriftSyntax.Syntax.ChildIndex

/-!
# Exact indexes

An index is exact if it finds the child that begins with the token of a key, and the first child of a
name, and has an entry for each child. The index that is made for some items is exact where no two of
them begin with the same token.
-/

namespace ThriftSyntax

variable {α : Type}

theorem eraseDups_of_nodup [DecidableEq α] {items : List α} (h : items.Nodup) :
    items.eraseDups = items := by
  induction items with
  | nil => rfl
  | cons item items ih =>
    obtain ⟨hitem, hitems⟩ := List.nodup_cons.1 h
    have hfilter : items.filter (fun other => !other == item) = items :=
      List.filter_eq_self.2 fun other ho => by
        simpa using fun heq : other = item => hitem (heq ▸ ho)
    rw [List.eraseDups_cons, hfilter, ih hitems]

/-- Of lists that have nothing in common, one alone has a given item. -/
theorem eq_of_mem_flatMap {β : Type} {lists : List α} {f : α → List β} (h : (lists.flatMap f).Nodup)
    {i j : Nat} {a b : α} {item : β} (ha : lists[i]? = some a) (hb : lists[j]? = some b)
    (hia : item ∈ f a) (hib : item ∈ f b) : i = j := by
  have hdisjoint := List.pairwise_iff_getElem.1 (List.nodup_flatMap.1 h).2
  obtain ⟨hi, rfl⟩ := List.getElem?_eq_some_iff.1 ha
  obtain ⟨hj, rfl⟩ := List.getElem?_eq_some_iff.1 hb
  rcases Nat.lt_trichotomy i j with hlt | heq | hgt
  · exact (hdisjoint i j hi hj hlt hia hib).elim
  · exact heq
  · exact (hdisjoint j i hj hi hgt hib hia).elim

section

variable (tokens : TokenChain) (span : α → Span) (name : α → String) (items : List α)

/-- The index has an entry for each of the items, under its own key and under no other, and the first
item of a name under the name. -/
structure ChildIndex.Exact (index : ChildIndex) : Prop where
  size : index.size = items.length
  byToken? : ∀ key i, index.byToken? key = some i ↔
    ∃ item, items[i]? = some item ∧ tokens.key? (span item).first = some key
  byName? : ∀ word i, index.byName? word = some i ↔
    (∃ item, items[i]? = some item ∧ name item = word) ∧
      ∀ j < i, ∀ item, items[j]? = some item → name item ≠ word

/-- What is found by a key is the item that begins with its token, and what is found by a name is the
first item that is called so. -/
structure Finds (byName? : String → Option α) (byToken? : Token.Key → Option α) : Prop where
  byToken? : ∀ key item, byToken? key = some item ↔
    item ∈ items ∧ tokens.key? (span item).first = some key
  byName? : ∀ word, byName? word = items.find? (name · == word)

end

/-- A key that is entered once is found where it was entered. -/
theorem ChildIndex.byToken?_eq_some {index : ChildIndex}
    (h : (index.entries.map (·.1)).Nodup) {key : Token.Key} {i : Nat} :
    index.byToken? key = some i ↔ (index.entries.map (·.1))[i]? = some key := by
  have hmem : ∀ entry : (Token.Key × String) × Nat,
      entry ∈ index.entries.zipIdx.reverse ↔ index.entries[entry.2]? = some entry.1 := fun entry => by
    rw [List.mem_reverse, List.mem_zipIdx_iff_getElem?]
  rw [byToken?, List.getElem?_map]
  constructor
  · intro hfound
    obtain ⟨entry, hentry, rfl⟩ := Option.map_eq_some_iff.1 hfound
    rw [(hmem entry).1 (List.mem_of_find?_eq_some hentry), Option.map_some]
    simpa using List.find?_some hentry
  · intro hi
    obtain ⟨entry, hentry, rfl⟩ := Option.map_eq_some_iff.1 hi
    cases hfound : index.entries.zipIdx.reverse.find? (·.1.1 == entry.1) with
    | none =>
      have := List.find?_eq_none.1 hfound (entry, i) ((hmem (entry, i)).2 hentry)
      simp at this
    | some other =>
      have hother := (hmem other).1 (List.mem_of_find?_eq_some hfound)
      have hkey : other.1.1 = entry.1 := by simpa using List.find?_some hfound
      obtain ⟨hlt, -⟩ := List.getElem?_eq_some_iff.1 hother
      have hsame : (index.entries.map (·.1))[other.2]? = (index.entries.map (·.1))[i]? := by
        rw [List.getElem?_map, List.getElem?_map, hother, hentry, Option.map_some, Option.map_some,
          hkey]
      rw [Option.map_some, (List.getElem?_inj (by simpa using hlt) h).1 hsame]

namespace Children

variable {tokens : TokenChain} {span : α → Span} {name : α → String} {items : List α}

theorem ofItems_keys (hsome : ∀ item ∈ items, (tokens.key? (span item).first).isSome) :
    ((ofItems tokens span name items).index.entries.map (·.1)).map some =
      items.map fun item => tokens.key? (span item).first := by
  rw [ofItems, List.map_map, List.map_map]
  refine List.map_congr_left fun item hi => ?_
  obtain ⟨key, hkey⟩ := Option.isSome_iff_exists.1 (hsome item hi)
  simp [hkey]

/-- The index of items that begin with different tokens is exact. -/
theorem ofItems_exact (hsome : ∀ item ∈ items, (tokens.key? (span item).first).isSome)
    (hnodup : (items.map fun item => tokens.key? (span item).first).Nodup) :
    (ofItems tokens span name items).index.Exact tokens span name items := by
  have hkeys : ((ofItems tokens span name items).index.entries.map (·.1)).map some =
      items.map fun item => tokens.key? (span item).first := ofItems_keys hsome
  have hentries : ((ofItems tokens span name items).index.entries.map (·.1)).Nodup := by
    rw [← hkeys] at hnodup
    exact hnodup.of_map _
  refine ⟨?_, fun key i => ?_, fun word i => ?_⟩
  · rw [ChildIndex.size, eraseDups_of_nodup hentries, List.length_map, ofItems, List.length_map]
  · rw [ChildIndex.byToken?_eq_some hentries, ← Option.map_eq_some_iff, ← List.getElem?_map, ← hkeys,
      List.getElem?_map, Option.map_eq_some_iff]
    simp
  · rw [ChildIndex.byName?, ofItems, List.findIdx?_map, List.findIdx?_eq_some_iff_getElem]
    simp only [List.getElem?_eq_some_iff]
    constructor
    · rintro ⟨hi, hword, hleast⟩
      refine ⟨⟨items[i], ⟨hi, rfl⟩, by simpa using hword⟩, fun j hj item hitem => ?_⟩
      obtain ⟨-, rfl⟩ := hitem
      simpa using hleast j hj
    · rintro ⟨⟨item, ⟨hi, rfl⟩, rfl⟩, hleast⟩
      exact ⟨hi, by simp, fun j hj => by simpa using hleast j hj _ ⟨Nat.lt_trans hj hi, rfl⟩⟩

/-- Items that have an exact index are found by it. -/
theorem ofItems_finds (hexact : (ofItems tokens span name items).index.Exact tokens span name items) :
    Finds tokens span name items (ofItems tokens span name items).byName?
      (ofItems tokens span name items).byToken? where
  byToken? key item := by
    rw [Children.byToken?, Option.bind_eq_some_iff]
    constructor
    · rintro ⟨i, hi, hitem⟩
      obtain ⟨other, hother, hkey⟩ := (hexact.byToken? key i).1 hi
      obtain rfl : other = item := Option.some_inj.1 (hother.symm.trans hitem)
      exact ⟨List.mem_of_getElem? hother, hkey⟩
    · rintro ⟨hitem, hkey⟩
      obtain ⟨i, hi⟩ := List.mem_iff_getElem?.1 hitem
      exact ⟨i, (hexact.byToken? key i).2 ⟨item, hi, hkey⟩, hi⟩
  byName? word := by
    rw [Children.byName?, ChildIndex.byName?, ofItems, List.findIdx?_map,
      List.find?_eq_bind_findIdx?_getElem?]
    rfl

/-- Children that have the index of their items are found by it. -/
theorem indexed {children : Children α} (h : ofItems tokens span name children.items = children)
    (hsome : ∀ item ∈ children.items, (tokens.key? (span item).first).isSome)
    (hnodup : (children.items.map fun item => tokens.key? (span item).first).Nodup) :
    children.index.Exact tokens span name children.items ∧
      Finds tokens span name children.items children.byName? children.byToken? := by
  obtain ⟨items, index⟩ := children
  obtain rfl : (ofItems tokens span name items).index = index := congrArg Children.index h
  have hexact : (ofItems tokens span name items).index.Exact tokens span name items :=
    ofItems_exact hsome hnodup
  exact ⟨hexact, ofItems_finds hexact⟩

end Children

end ThriftSyntax
