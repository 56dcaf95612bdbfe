import ThriftSyntax.Proofs.Reader.Position

/-!
# Slices of a text

A token knows the place at which it begins. `token.StandsIn text` says that the text has the text of
the token at that place; of the tokens that make up a text, every run spells such a slice.
-/

namespace ThriftSyntax

/-! ## Bytes -/

/-- The number of bytes of a text. -/
def byteSize (text : List Char) : Nat := (String.ofList text).utf8ByteSize

@[simp] theorem byteSize_nil : byteSize [] = 0 := rfl

@[simp] theorem byteSize_cons (c : Char) (text : List Char) :
    byteSize (c :: text) = c.utf8Size + byteSize text := by
  simp [byteSize, String.ofList_cons]

@[simp] theorem byteSize_append (xs ys : List Char) :
    byteSize (xs ++ ys) = byteSize xs + byteSize ys := by
  simp [byteSize, String.ofList_append]

theorem byteSize_toList (text : String) : byteSize text.toList = text.utf8ByteSize := by
  rw [byteSize, String.ofList_toList]

namespace Location

theorem offset_step (place : Location) (c : Char) (next : Option Char) :
    (place.step c next).offset = place.offset + c.utf8Size := by
  unfold step
  split <;> rfl

theorem offset_advance (place : Location) (raw rest : List Char) :
    (place.advance raw.length (raw ++ rest)).offset = place.offset + byteSize raw := by
  induction raw generalizing place with
  | nil => simp
  | cons c raw ih =>
    rw [List.length_cons, List.cons_append, advance_succ_cons, ih, offset_step, byteSize_cons,
      Nat.add_assoc]

/-- Of what follows a text, its first character alone has a part in where the text ends. -/
theorem advance_congr (place : Location) (raw : List Char) {rest rest' : List Char}
    (h : rest.head? = rest'.head?) :
    place.advance raw.length (raw ++ rest) = place.advance raw.length (raw ++ rest') := by
  induction raw generalizing place with
  | nil => simp
  | cons c raw ih =>
    have hnext : (raw ++ rest).head? = (raw ++ rest').head? := by
      cases raw with
      | nil => exact h
      | cons => rfl
    rw [List.length_cons, List.cons_append, List.cons_append, advance_succ_cons, advance_succ_cons,
      hnext, ih]

/-- Beyond the end of the text nothing is passed over. -/
theorem advance_min (place : Location) (n : Nat) (text : List Char) :
    place.advance (min n text.length) text = place.advance n text := by
  induction text generalizing place n with
  | nil => simp
  | cons c text ih =>
    cases n with
    | zero => simp
    | succ n => rw [List.length_cons, Nat.add_min_add_right, advance_succ_cons, advance_succ_cons, ih]

theorem advance_append (place : Location) (xs ys rest : List Char) :
    place.advance (xs ++ ys).length (xs ++ (ys ++ rest)) =
      (place.advance xs.length (xs ++ (ys ++ rest))).advance ys.length (ys ++ rest) := by
  induction xs generalizing place with
  | nil => simp
  | cons c xs ih =>
    simp only [List.cons_append, List.length_cons, advance_succ_cons, ih]

end Location

/-- The text of the token stands in `text` at the place that the token names. -/
def Token.StandsIn (token : Token) (text : List Char) : Prop :=
  ∃ before after, text = before ++ (token.raw.toList ++ after) ∧
    token.location = Location.start.advance before.length text

/-- The byte after the last one of the token. -/
def Token.stop (token : Token) : Nat := token.location.offset + token.raw.utf8ByteSize

/-- The text has `part` from the byte `first` on. -/
def IsSlice (text : String) (first : Nat) (part : String) : Prop :=
  ∃ before after, text = before ++ part ++ after ∧ before.utf8ByteSize = first

theorem Token.StandsIn.isSlice {token : Token} {text : String}
    (h : token.StandsIn text.toList) : IsSlice text token.location.offset token.raw := by
  obtain ⟨before, after, htext, hplace⟩ := h
  refine ⟨String.ofList before, String.ofList after, ?_, ?_⟩
  · rw [← String.toList_inj, htext]
    simp
  · rw [hplace, htext, Location.offset_advance, ← byteSize]
    simp [Location.start]

namespace Link

variable {id : Nat} {place : Location} {front back : List Link} {link : Link} {rest : List Char}

/-- A token stands where the tokens before it end. -/
theorem InOrder.location_eq (h : InOrder id place (front ++ link :: back) rest) :
    link.location = place.advance (spelled front).length
      (spelled (front ++ link :: back) ++ rest) := by
  induction front generalizing id place with
  | nil => simpa using h.2.1
  | cons first front ih =>
    rw [List.cons_append] at h ⊢
    rw [ih h.2.2.2]
    simp only [spelled_cons, spelled_append, List.append_assoc, Location.advance_append]

theorem InOrder.offset_eq (h : InOrder id .start (front ++ link :: back) rest) :
    link.location.offset = byteSize (spelled front) := by
  rw [h.location_eq, spelled_append, List.append_assoc, Location.offset_advance]
  exact Nat.zero_add _

/-- Tokens in order are numbered one after the other. -/
theorem InOrder.pairwise {links : List Link} (h : InOrder id place links rest) :
    (∀ link ∈ links, id ≤ link.id) ∧ links.Pairwise (·.id < ·.id) := by
  induction links generalizing id place with
  | nil => simp
  | cons first links ih =>
    obtain ⟨hfirst, -, -, h⟩ := h
    obtain ⟨hle, hlinks⟩ := ih h
    refine ⟨List.forall_mem_cons.2 ⟨hfirst.ge, fun link hl => ?_⟩,
      List.pairwise_cons.2 ⟨fun link hl => ?_, hlinks⟩⟩
    all_goals
      have := hle link hl
      omega

end Link

namespace TokenChain

variable {chain : TokenChain} {link first last : Link}

theorem toList_text (chain : TokenChain) (first last : Nat) :
    (chain.text ⟨first, last⟩).toList = Link.spelled ((chain.links.take (last + 1)).drop first) := by
  rw [Link.spelled_eq, List.map_drop, List.map_take, map_token_links, text, Array.toList_extract,
    List.extract_eq_take_drop, List.drop_take]
  rfl

theorem getElem?_links (h : link ∈ chain.links) : chain.links[link.id]? = some link := by
  obtain ⟨id, hid, rfl⟩ := List.mem_mapIdx.1 h
  simp [links]

/-- A token begins where the text of the tokens before it ends. -/
theorem offset_eq (h : Link.InOrder 0 .start chain.links []) (hl : link ∈ chain.links) :
    link.location.offset = byteSize (Link.spelled (chain.links.take link.id)) := by
  obtain ⟨hid, hlink⟩ := List.getElem?_eq_some_iff.1 (getElem?_links hl)
  have hsplit := List.take_append_drop link.id chain.links
  rw [← List.getElem_cons_drop hid, hlink] at hsplit
  rw [← hsplit] at h
  rw [h.location_eq, Link.spelled_append, List.append_assoc, Location.offset_advance]
  simp [Location.start]

theorem take_succ_links (hl : link ∈ chain.links) :
    chain.links.take (link.id + 1) = chain.links.take link.id ++ [link] := by
  obtain ⟨hid, hlink⟩ := List.getElem?_eq_some_iff.1 (getElem?_links hl)
  rw [List.take_succ_eq_append_getElem hid, hlink]

/-- A token that has a text begins before every later one. -/
theorem offset_lt (h : Link.InOrder 0 .start chain.links []) (hf : first ∈ chain.links)
    (hl : last ∈ chain.links) (hlt : first.id < last.id) (hk : first.kind ≠ .endOfInput) :
    first.location.offset < last.location.offset := by
  have hsplit : chain.links.take last.id = chain.links.take first.id ++ first ::
      (chain.links.take last.id).drop (first.id + 1) := by
    conv_lhs => rw [← List.take_append_drop (first.id + 1) (chain.links.take last.id)]
    rw [List.take_take, Nat.min_eq_left hlt, take_succ_links hf, List.append_assoc,
      List.singleton_append]
  have hpos : 0 < byteSize first.raw.toList := by
    obtain ⟨c, text, htext⟩ :=
      List.exists_cons_of_ne_nil ((h.spells first hf).ne_nil hk)
    rw [htext, byteSize_cons]
    have := c.utf8Size_pos
    omega
  rw [offset_eq h hf, offset_eq h hl, hsplit, Link.spelled_append, Link.spelled_cons,
    byteSize_append, byteSize_append]
  omega

/-- A key is that of one token alone, apart from the end of the input. -/
theorem id_eq_of_key (h : Link.InOrder 0 .start chain.links []) (hf : first ∈ chain.links)
    (hl : last ∈ chain.links) (hkf : first.kind ≠ .endOfInput) (hkl : last.kind ≠ .endOfInput)
    (hkey : first.token.key = last.token.key) : first.id = last.id := by
  have hoffset : first.location.offset = last.location.offset :=
    congrArg (·.location.offset) hkey
  rcases Nat.lt_trichotomy first.id last.id with hlt | heq | hgt
  · exact absurd hoffset (offset_lt h hf hl hlt hkf).ne
  · exact heq
  · exact absurd hoffset (offset_lt h hl hf hgt hkl).ne'

/-- A run of tokens spells the slice of the source from its first token to the end of its last. -/
theorem isSlice_text (h : Link.InOrder 0 .start chain.links []) (hf : first ∈ chain.links)
    (hl : last ∈ chain.links) (hle : first.id ≤ last.id) :
    IsSlice chain.source first.location.offset (chain.text ⟨first.id, last.id⟩) ∧
      last.location.offset + last.raw.utf8ByteSize =
        first.location.offset + (chain.text ⟨first.id, last.id⟩).utf8ByteSize := by
  have hsplit : chain.links.take (last.id + 1) = chain.links.take first.id ++
      (chain.links.take (last.id + 1)).drop first.id := by
    conv_lhs => rw [← List.take_append_drop first.id (chain.links.take (last.id + 1))]
    rw [List.take_take, Nat.min_eq_left (by omega)]
  rw [offset_eq h hf, offset_eq h hl, ← byteSize_toList, ← byteSize_toList, toList_text]
  constructor
  · refine ⟨String.ofList (Link.spelled (chain.links.take first.id)),
      String.ofList (Link.spelled (chain.links.drop (last.id + 1))), ?_, rfl⟩
    rw [← String.toList_inj, Link.toList_source]
    simp only [String.toList_append, String.toList_ofList, toList_text]
    rw [← Link.spelled_append, ← hsplit, ← Link.spelled_append, List.take_append_drop]
  · rw [← byteSize_append, ← byteSize_append, ← Link.spelled_append, ← hsplit, take_succ_links hl]
    simp

end TokenChain

end ThriftSyntax
