import ThriftSyntax.Proofs.Coupling.Definition
import ThriftSyntax.Proofs.Session.Progress
import ThriftSyntax.Proofs.Session.Shift
import ThriftSyntax.Proofs.Session.Waiting
import ThriftSyntax.Proofs.Span.Phrase

/-!
# Fragments one behind the other

Types, constants, fields and annotations may be called for one after the other upon one text. A call that
succeeds may have read blanks and comments behind its last token, and put back the word behind those. What
is called for next reads all the same what it would read from the text behind that token.
-/

namespace ThriftSyntax

open Parse Lexeme

/-! ## What a call leaves behind its last token -/

namespace Reader

/-- The last significant token that was read and not put back. -/
def lastConsumed? (reader : Reader) : Option Link :=
  ((reader.chain.links.take reader.consumed).filter fun link => !link.kind.isTrivia).getLast?

/-- What the reader has chained is the front of the text `whole`, and its cursor stands behind that. -/
structure Upon (whole : List Char) (reader : Reader) : Prop where
  valid : reader.Valid
  sound : reader.Sound
  order : Link.InOrder 0 .start reader.chain.links reader.cursor.rest
  text : whole = Link.spelled reader.chain.links ++ reader.cursor.rest
  shows : reader.cursor.location.Shows whole reader.cursor.rest

/-- Of the text `whole`, the reader has read the token `last`, those in front of it, and the blanks and
comments `gap` behind it; it may also have put back the word that comes then. -/
structure Past (whole : List Char) (reader : Reader) (front : List Link) (last : Link)
    (gap : List Link) : Prop extends Upon whole reader where
  links : reader.chain.links = front ++ last :: (gap ++ reader.held.toList)
  gap : Link.IsGap gap
  word : ∀ link, reader.held = some link → link.kind.isWord true = true

/-- A fresh reader has come as far in the `text` that is behind `n` tokens, but for what was put back. -/
structure Passed (text : List Char) (n : Nat) (reader fresh : Reader) : Prop where
  opens : fresh.Open
  rest : fresh.cursor.rest = Link.spelled reader.held.toList ++ reader.cursor.rest
  size : reader.chain.size = fresh.chain.size + n + reader.held.toList.length
  shows : fresh.cursor.location.Shows text fresh.cursor.rest

variable {reader after : Reader} {xs : List Terminal} {text : List Char} {front gap : List Link}
  {last : Link}

theorem Valid.consumed_append (hr : reader.Valid) :
    reader.chain.links = reader.chain.links.take reader.consumed ++ reader.held.toList := by
  unfold consumed
  cases hh : reader.held with
  | none => simp [← TokenChain.length_links]
  | some link =>
    obtain ⟨front, hfront⟩ := List.getLast?_eq_some_iff.1 (hr.held_last link hh)
    simp [← TokenChain.length_links, hfront]

theorem Reads.upon (h : (Reader.ofText text).Reads xs after) (hm : Moves (.ofText text) after) :
    Upon text after := by
  obtain ⟨links, hb, -⟩ := h.faces _ _ _ ⟨_, h.valid.before_held, .of_links _ _⟩
  obtain rfl := hb.eq_all
  obtain ⟨htext, horder⟩ := before_ofText.1 hb
  exact ⟨h.valid, hm.sound (sound_ofText text), horder, htext, (hm.lexes (lexes_ofText text)).shows⟩

/-- What is read of a text are the significant tokens that were consumed. -/
theorem Reads.significant_consumed (h : (Reader.ofText text).Reads xs after) :
    ((after.chain.links.take after.consumed).filter fun link => !link.kind.isTrivia) =
      Phrase.tokens xs := by
  have hheld := Laid.of_links after.cursor.rest after.held.toList
  obtain ⟨links, hb, hlaid⟩ := h.faces _ _ _ ⟨_, h.valid.before_held, hheld⟩
  obtain rfl := hb.eq_all
  have hsignificant := hlaid.significant
  rw [List.flatMap_append, ← hheld.significant] at hsignificant
  nth_rewrite 1 [h.valid.consumed_append] at hsignificant
  rw [List.filter_append] at hsignificant
  exact List.append_cancel_right hsignificant

/-- The last of the tokens that were consumed has only blanks and comments behind it. -/
theorem exists_last (h : reader.lastConsumed? = some last) : ∃ front gap,
    reader.chain.links.take reader.consumed = front ++ last :: gap ∧ Link.IsGap gap := by
  rw [lastConsumed?, List.getLast?_filter, List.find?_eq_some_iff_append] at h
  obtain ⟨-, gap, front, hlinks, hgap⟩ := h
  refine ⟨front.reverse, gap.reverse, ?_, fun link hl => ?_⟩
  · rw [← List.reverse_inj, hlinks]
    simp
  · simpa using hgap link (List.mem_reverse.1 hl)

/-- What waits behind another token than a dot is a word. -/
theorem Waits.past {whole : List Char} (hw : reader.Waits) (hr : Upon whole reader)
    (hlast : reader.lastConsumed? = some last) (hdot : last.kind ≠ .punct .dot) :
    ∃ front gap, Past whole reader front last gap := by
  have hall := hr.valid.consumed_append
  obtain ⟨front, gap, hlinks, hgap⟩ := exists_last hlast
  refine ⟨front, gap, hr, by rw [hall, hlinks]; simp, hgap, fun link hh => ?_⟩
  refine (hw link hh).resolve_right ?_
  -- A token behind a dot comes right behind what was consumed, which this dot is then the last of.
  rintro ⟨before, dot, hchain, hk⟩
  have hconsumed : reader.chain.links.take reader.consumed = before ++ [dot] := by
    rw [hh, Option.toList_some, hchain, List.append_cons] at hall
    rw [hchain, List.append_cons]
    exact (List.append_inj_left' hall rfl).symm
  have hsignificant : dot.kind.isTrivia = false := by rw [hk]; rfl
  rw [lastConsumed?, hconsumed, List.filter_append,
    List.filter_cons_of_pos (by simpa using hsignificant), List.filter_nil, List.getLast?_concat] at hlast
  exact hdot (Option.some.inj hlast ▸ hk)

/-! ## From there on, and from the start of the text behind -/

namespace Past

variable {whole : List Char} {fresh : Reader} {word : Link}

theorem id_eq (h : Past whole reader front last gap) : last.id = front.length := by
  have hget : reader.chain.links[front.length]? = some last := by simp [h.links]
  rw [h.order.id_eq hget, Nat.zero_add]

theorem byteSize_eq (h : Past whole reader front last gap) :
    byteSize (Link.spelled (front ++ [last])) = last.token.stop := by
  have hoffset := (h.links ▸ h.order).offset_eq
  rw [Link.spelled_append, byteSize_append, ← hoffset, Link.spelled_cons, Link.spelled_nil,
    List.append_nil]
  exact congrArg _ (byteSize_toList _)

theorem text_eq (h : Past whole reader front last gap) :
    whole = Link.spelled (front ++ [last]) ++
      (Link.spelled gap ++ (Link.spelled reader.held.toList ++ reader.cursor.rest)) := by
  rw [h.text, h.links]
  simp

theorem lexed (h : Past whole reader front last gap) :
    Link.Lexed gap (Link.spelled reader.held.toList ++ reader.cursor.rest) ∧
      Link.Lexed reader.held.toList reader.cursor.rest := by
  have hlexed := h.order.lexed
  rw [h.links, Link.lexed_append] at hlexed
  exact Link.lexed_append.1 hlexed.2.2

theorem open_release (h : Past whole reader front last gap) : reader.release.Open := by
  refine ⟨Move.release.sound h.sound, rfl, TokenChain.ending?_eq_none fun link hl hk => ?_⟩
  exact Kind.ne_endOfInput_of_isWord (h.word link (h.valid.ended link hl hk)) hk

/-- A fresh reader passes over what has been passed over. -/
theorem exists_passed (h : Past whole reader front last gap)
    (ht : text = Link.spelled gap ++ (Link.spelled reader.held.toList ++ reader.cursor.rest)) (n : Nat) :
    ∃ fresh, skipTrivia ((Reader.ofText text).atRound n) = chainTrivia fresh ∧
      Passed text (last.id + 1) reader fresh := by
  have hopen : ((Reader.ofText text).atRound n).Open := ⟨(sound_ofText text).atRound n, rfl, rfl⟩
  obtain ⟨fresh, hrun, hopen, hrest, hsize, hplace⟩ := hopen.chainTrivia_eq h.gap h.lexed.1 ht
  refine ⟨fresh, hrun, hopen, hrest, ?_, ?_⟩
  · have hempty : ((Reader.ofText text).atRound n).chain.size = 0 := rfl
    rw [← TokenChain.length_links, h.links, hsize, hempty, h.id_eq]
    simp only [List.length_append, List.length_cons]
    omega
  · rw [hplace, hrest, ← ht]
    exact Location.shows_of_eq ht

/-- Where nothing was put back, both readers have come equally far. -/
theorem inStep_of_none (h : Past whole reader front last gap) (hh : reader.held = none)
    (hf : Passed text (last.id + 1) reader fresh) :
    Reader.InStep whole text (last.id + 1) reader fresh := by
  have hopen : reader.Open := ⟨h.sound, hh, h.open_release.ending⟩
  have hrest := hf.rest
  have hsize := hf.size
  rw [hh] at hrest hsize
  exact ⟨hopen.abreast hf.opens hrest.symm, hsize, h.shows, hf.shows⟩

/-- A word that was put back is what comes next in the text behind. -/
theorem shifted_of_word (h : Past whole reader front last gap) (hh : reader.held = some word)
    (hf : Passed text (last.id + 1) reader fresh) :
    fresh.cursor.rest = word.raw.toList ++ reader.cursor.rest ∧
      IsLexeme word.kind word.raw.toList reader.cursor.rest ∧
      word.Shifted whole text (last.id + 1) (fresh.nextLink word.kind word.raw.toList.length) := by
  have hlexed := h.lexed.2
  have hlinks := h.links
  have hrest := hf.rest
  have hsize := hf.size
  rw [hh, Option.toList_some] at hlexed hlinks hrest hsize
  rw [Link.spelled_cons, Link.spelled_nil, List.append_nil] at hrest
  refine ⟨hrest, hlexed.1, rfl, ?_, ?_, _, ?_, hrest ▸ hf.shows⟩
  · rw [← String.toList_inj, nextLink_raw hrest]
  · have hid := TokenChain.id_of_getLast? (h.valid.held_last word hh)
    rw [hsize] at hid
    exact Nat.succ.inj hid
  · have hchain : reader.chain.links = (front ++ last :: gap) ++ [word] := by simp [hlinks]
    have horder := h.order
    rw [hchain] at horder
    rw [horder.location_eq, ← hchain, ← h.text]
    refine Location.shows_of_eq ?_
    rw [h.text, hchain, Link.spelled_append, List.append_assoc]
    simp

/-- So a reader that has put back a word and a fresh one go on alike. -/
theorem ahead_of_word (h : Past whole reader front last gap) (hh : reader.held = some word)
    (hf : Passed text (last.id + 1) reader fresh) :
    (shifting whole text (last.id + 1)).Ahead word reader.release fresh := by
  have hword := h.word word hh
  obtain ⟨hrest, hl, hshifted⟩ := h.shifted_of_word hh hf
  have hsize := hf.size
  rw [hh] at hsize
  refine ⟨hword, hf.opens.held, hf.opens.ending, ⟨_, hrest, hl⟩, fun m n => ?_⟩
  have hrest' : (fresh.atRound n).cursor.rest = word.raw.toList ++ reader.cursor.rest := hrest
  have hpass := rest_pass hrest' word.kind
  have hopen := (hf.opens.atRound n).pass hrest' hl (Kind.ne_endOfInput_of_isWord hword)
  refine ⟨hshifted, List.mem_of_getLast? (h.valid.held_last word hh), ?_, .cons hshifted .nil,
    (h.open_release.atRound m).abreast hopen hpass.symm, ?_, h.shows, ?_⟩
  · exact List.mem_of_getLast? (by rw [links_pass, List.getLast?_concat]; rfl)
  · rw [Reader.pass, TokenChain.size_push]
    exact hsize.trans (Nat.add_right_comm _ _ _)
  · rw [hpass, Reader.pass, Cursor.location_advance, hrest']
    exact (hrest ▸ hf.shows).advance

/-- What is called for reads from both readers alike. -/
theorem readers (h : Past whole reader front last gap)
    (ht : text = Link.spelled gap ++ (Link.spelled reader.held.toList ++ reader.cursor.rest)) :
    (shifting whole text (last.id + 1)).readers reader (.ofText text) := by
  -- Only the fresh reader has the gap before it, so they are alike no sooner than it is skipped.
  refine .apart (fun m n => ?_) fun _ => trivial
  obtain ⟨fresh, hskip, hf⟩ := h.exists_passed ht n
  rw [hskip]
  cases hh : reader.held with
  | none =>
    have hh' : (reader.atRound m).held = none := hh
    have hstep := (h.inStep_of_none hh hf).atRound m fresh.rounds
    rw [skipTrivia_of_none hh']
    exact ((shifting whole text (last.id + 1)).chainTrivia.outcome hstep).mono
      fun h => .free h.1 h.2
  | some word =>
    have hh' : (reader.atRound m).held = some word := hh
    have hahead := h.ahead_of_word hh hf
    have hhold : reader.atRound m = (reader.release.atRound m).hold word :=
      congrArg (Reader.atRound · m) (hold_release hh).symm
    have hl : word ∈ (reader.atRound m).chain.links := h.sound.held_mem word hh
    rw [skipTrivia_of_held hh' hl, if_neg (by simp [Kind.not_trivia_of_isWord hahead.word]),
      ← skipTrivia_of_none hf.opens.held,
      skipTrivia_of_rest hf.opens.held hahead.startsTrivia_eq, hhold]
    exact .ok (.ahead (hahead.round m _))

end Past

end Reader

/-! ## Calls one after the other -/

/-- The runs have come to the same, the one in the whole text and the other in the last part of it, which
is behind the tokens of `front`: the numbers of tokens are greater by `n`, and an error is later by as much
as there is in front. -/
inductive Parse.Result.Shifted (front text : List Char) (n : Nat) :
    Parse.Result (List Node) → Parse.Result (List Node) → Prop
  | ok (nodes : List Node) (r s : Reader) :
      Shifted front text n (.ok (nodes.map (Node.relabel (· + n))) r) (.ok nodes s)
  | error {error : Error} {place place' : Location} (r s : Reader)
      (hplace : error.location? = some place')
      (hcorresponds : place.Corresponds (front ++ text) text place')
      (hoffset : place.offset = byteSize front + place'.offset) :
      Shifted front text n (.error (error.moveTo place) r) (.error error s)

namespace Call

open Reader Phrase

variable {call : Call} {reader after : Reader} {nodes : List Node} {whole text : List Char} {n : Nat}

/-- Whether the call is for a part of a document. -/
def isFragment : Call → Bool
  | document _ => false
  | _ => true

/-- A single node ends with its last token, and annotations do with their closing parenthesis. -/
def EndsWith (call : Call) (nodes : List Node) (last : Link) : Prop :=
  match call with
  | annotations => last.kind = .punct .rightParen
  | _ => ∃ node, nodes = [node] ∧ node.span.last = last.id

theorem exists_last_of_covers {node : Node} {links : List Link} (h : node.Covers links) :
    ∃ last, links.getLast? = some last ∧ ∃ other, [node] = [other] ∧ other.span.last = last.id := by
  obtain ⟨first, last, -, hlast, hspan⟩ := h.bounds
  exact ⟨last, hlast, node, rfl, by rw [hspan]⟩

/-- What is read for a call, and what waits behind it. -/
theorem run_reads (hcall : call.isFragment = true) (hr : reader.Valid)
    (h : call.run reader = .ok nodes after) : after.Waits ∧ ∃ xs last, reader.Reads xs after ∧
      (tokens xs).getLast? = some last ∧ call.EndsWith nodes last := by
  cases call with
  | document options => cases hcall
  | fieldType =>
    obtain ⟨node, hrun, rfl⟩ := map_eq_ok.1 h
    obtain ⟨phrase, rfl, hreads, -⟩ := Grammar.fieldType_sound hr hrun
    obtain ⟨last, hlast, hends⟩ := exists_last_of_covers phrase.covers
    exact ⟨Grammar.fieldType_waits hr hrun, _, last, hreads, hlast, hends⟩
  | constValue =>
    obtain ⟨node, hrun, rfl⟩ := map_eq_ok.1 h
    obtain ⟨phrase, rfl, hreads⟩ := Grammar.constValue_sound hr hrun
    obtain ⟨last, hlast, hends⟩ := exists_last_of_covers phrase.covers
    exact ⟨Grammar.constValue_waits hr hrun, _, last, hreads, hlast, hends⟩
  | field =>
    obtain ⟨node, hrun, rfl⟩ := map_eq_ok.1 h
    obtain ⟨phrase, rfl, hreads⟩ := Grammar.field_sound hr hrun
    obtain ⟨last, hlast, hends⟩ := exists_last_of_covers phrase.covers
    exact ⟨Grammar.field_waits hr hrun, _, last, hreads, hlast, hends⟩
  | annotations =>
    obtain ⟨_, hrun, rfl⟩ := map_eq_ok.1 h
    have hwaits := waits_of_none (Grammar.annotations_held hrun)
    obtain ⟨_, between, hmark, hrun⟩ := bind_eq_ok.1 hrun
    obtain ⟨opening, -, hopening⟩ := Grammar.mark_sound hr hmark
    obtain ⟨_, between, hlist, hrun⟩ := bind_eq_ok.1 hrun
    obtain ⟨-, rfl⟩ := pure_eq_ok.1 hrun
    obtain ⟨items, closing, -, -, hitems, -⟩ := Grammar.annotationList_sound hopening.valid hlist
    refine ⟨hwaits, _, closing.link, hopening.trans hitems, ?_, closing.fits⟩
    rw [tokens_append, tokens_append, tokens_leaf closing, ← List.append_assoc, List.getLast?_concat]

/-- A node of the whole text is that of the part with greater numbers of tokens. -/
theorem shifts_single {α : Type} {p : Parse α} {relabel : (Nat → Nat) → α → α} {f : α → Node}
    (hid : ∀ a, relabel id a = a) (hf : ∀ a, f (relabel (· + n) a) = (f a).relabel (· + n))
    (h : (shifting whole text n).Relates p p ((shifting whole text n).Alike relabel)) :
    (shifting whole text n).Relates ((fun a => [f a]) <$> p) ((fun a => [f a]) <$> p)
      fun xs ys => xs = ys.map (Node.relabel (· + n)) := by
  refine .map (h.weaken fun {a b r s} h => ⟨h.1, ?_⟩)
  have hab : a = relabel (· + n) b := (hid a).symm.trans h.2
  rw [hab, hf]
  rfl

theorem run_shifts (hcall : call.isFragment = true) :
    (shifting whole text n).Relates call.run call.run
      fun xs ys => xs = ys.map (Node.relabel (· + n)) := by
  cases call with
  | document options => cases hcall
  | fieldType =>
    exact shifts_single FieldType.relabel_id (fun _ => rfl) Grammar.fieldType_relates
  | constValue =>
    exact shifts_single ConstValue.relabel_id (fun _ => rfl) Grammar.constValue_couples
  | field => exact shifts_single relabelField_id (fun _ => rfl) Grammar.field_couples
  | annotations =>
    refine .map (Grammar.annotations_couples.weaken fun {as bs r s} h => ⟨h.1, ?_⟩)
    have hab : as = relabelAnnotations (· + n) bs := (relabelAnnotations_id as).symm.trans h.2
    show as.map Node.annotation = (bs.map Node.annotation).map (Node.relabel (· + n))
    rw [hab, relabelAnnotations, List.map_map, List.map_map]
    rfl

/-- The coupling says all that there is to say: neither run stalls, and both errors have a place. -/
theorem shifted_of_readers {front : List Char} (hcall : call.isFragment = true) (hs : reader.Steady)
    (h : (shifting (front ++ text) text n).readers reader (.ofText text)) :
    Result.Shifted front text n (call.run reader) (call.run (.ofText text)) := by
  have houtcome := (run_shifts hcall).outcome h
  have hruns := call.run_runs (steady_ofText text)
  generalize hx : call.run reader = x at houtcome ⊢
  generalize hy : call.run (.ofText text) = y at houtcome ⊢
  cases houtcome with
  | ok h =>
    obtain ⟨-, rfl⟩ := h
    exact .ok _ _ _
  | error h =>
    obtain ⟨place, rfl, hplace⟩ := h
    obtain ⟨place', hplace'⟩ := Option.isSome_iff_exists.1 (hruns.error _ _ hy).located
    have hcorresponds := hplace place' hplace'
    exact .error _ _ hplace' hcorresponds hcorresponds.offset_eq
  | gone h => exact h.elim
  | exempt h => exact absurd h (call.ne_stalled hs hx)
  | stalled => exact absurd rfl (call.ne_stalled (steady_ofText text) hy)

/-- Where a call for a type, a constant, a field or annotations has succeeded, and what it read does not
end with a dot, a further such call comes to the same as it does upon the text behind the last token. -/
theorem run_composes {text : String} {first : Call} (hfirst : first.isFragment = true)
    (h : first.run (.ofText text.toList) = .ok nodes after) :
    ∃ last, after.lastConsumed? = some last ∧ first.EndsWith nodes last ∧
      (last.kind ≠ .punct .dot → ∃ front rest, text.toList = front ++ rest ∧
        byteSize front = last.token.stop ∧ ∀ second : Call, second.isFragment = true →
          Result.Shifted front rest (last.id + 1) (second.run after) (second.run (.ofText rest))) := by
  have hmoves := ((first.run_runs (steady_ofText text.toList)).ok _ _ h).1.moves
  obtain ⟨hwaits, xs, last, hreads, hlast, hends⟩ := run_reads hfirst (valid_ofText _) h
  rw [← hreads.significant_consumed] at hlast
  refine ⟨last, hlast, hends, fun hdot => ?_⟩
  obtain ⟨before, gap, hpast⟩ := hwaits.past (hreads.upon hmoves) hlast hdot
  refine ⟨_, _, hpast.text_eq, hpast.byteSize_eq, fun second hsecond => ?_⟩
  have hreaders := hpast.readers rfl
  rw [hpast.text_eq] at hreaders
  exact shifted_of_readers hsecond (hmoves.steady (steady_ofText _)) hreaders

/-- Behind a list type waits a word, which is another type, and begins no annotations. -/
theorem run_composes_listType : ∃ nodes after last,
    fieldType.run (.ofText "list<i32> /*é*/ values".toList) = .ok nodes after ∧
    after.held.isSome = true ∧ after.lastConsumed? = some last ∧ last.id = 3 ∧
    ∃ front rest, "list<i32> /*é*/ values".toList = front ++ rest ∧ byteSize front = 9 ∧
      ∀ second ∈ [fieldType, annotations],
        Result.Shifted front rest 4 (second.run after) (second.run (.ofText rest)) := by
  let run := fieldType.run (.ofText "list<i32> /*é*/ values".toList)
  have hlast : (Result.final run).lastConsumed? =
      some ⟨3, .punct .greater, ">", ⟨8, 1, 9⟩⟩ := by decide +kernel
  have hheld : (Result.final run).held.isSome = true := by decide +kernel
  have hnone : Result.error? run = none := by decide +kernel
  cases h : run with
  | error error after =>
    rw [h] at hnone
    cases hnone
  | ok nodes after =>
    rw [h] at hlast hheld
    have hfragment : fieldType.isFragment = true := rfl
    obtain ⟨last, hlast', -, hcomposes⟩ := run_composes hfragment h
    obtain rfl := Option.some.inj (hlast.symm.trans hlast')
    obtain ⟨front, rest, htext, hstop, hsecond⟩ := hcomposes (by decide)
    refine ⟨nodes, after, _, h, hheld, hlast, rfl, front, rest, htext, hstop, fun second hmem => ?_⟩
    exact hsecond second (by revert second; decide)

end Call

end ThriftSyntax
