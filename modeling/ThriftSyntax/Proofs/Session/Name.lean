import ThriftSyntax.Proofs.Fragment
import ThriftSyntax.Proofs.LongestName
import ThriftSyntax.Proofs.Session.Skipping

/-!
# Reading names exactly

Where a name is asked for, the longest name behind the blanks and comments is read, whether it begins
with a token that was put back or is all in the text behind the cursor. A name that ends with a dot has
had the token behind it read too, and put back.
-/

namespace ThriftSyntax

open Parse Lexeme

/-! ## The tokens of a name in a chain -/

/-- The tokens of a chain are numbered by their places. -/
theorem TokenChain.id_of_links {chain : TokenChain} {front back : List Link} {link : Link}
    (h : chain.links = front ++ link :: back) : link.id = front.length := by
  have hget : chain.links[front.length]? = some link := by simp [h]
  rw [links, List.getElem?_mapIdx] at hget
  obtain ⟨token, -, rfl⟩ := Option.map_eq_some_iff.1 hget
  rfl

theorem DottedName.links_ne_nil (words : DottedName) : words.links ≠ [] := List.cons_ne_nil _ _

/-- The text of a name is that of its span. -/
theorem DottedName.text_span {chain : TokenChain} {words : DottedName} {front back : List Link}
    (h : chain.links = front ++ (words.links ++ back)) : chain.text words.span = words.text := by
  have hfirst : words.head.id = front.length := TokenChain.id_of_links h
  have hlast : words.last.id = front.length + words.links.length - 1 := by
    have hsplit := List.dropLast_append_getLast? words.last words.getLast?_links
    rw [← hsplit, List.append_assoc, ← List.append_assoc] at h
    rw [TokenChain.id_of_links h, List.length_append, List.length_dropLast]
    have := List.length_pos_of_ne_nil words.links_ne_nil
    omega
  rw [← String.toList_inj, span, hfirst, hlast,
    TokenChain.toList_text_mid h words.links_ne_nil, toList_text]

namespace Reader

variable {reader after : Reader} {source text : List Char} {done links : List Link} {link : Link}
  {reserved : Bool}

theorem At.unread_eq (h : reader.At source done text) : reader.unread = text.length := by
  rw [h.text_eq, unread, reader.cursor.left_eq, List.length_append]
  cases reader.held <;> simp [← String.length_toList]

/-! ## Behind a dot -/

/-- What comes of looking for a word where the dot behind which `text` stands was read last. -/
inductive AfterDot (source : List Char) (done : List Link) (text : List Char) (reserved : Bool) :
    Parse.Result (Option Link) → Prop
  | word {word : Link} {after : Reader} {tail : List Char} (hw : word.kind.isWord reserved = true)
      (ht : text = word.raw.toList ++ tail) (hl : IsLexeme word.kind word.raw.toList tail)
      (hh : after.held = none) (hat : after.At source (done ++ [word]) tail) :
      AfterDot source done text reserved (.ok (some word) after)
  | other {next : Link} {after : Reader} (hnot : ¬ OpensWord reserved text)
      (hfirst : first text = .ok (next.kind, next.raw.toList.length)) (hh : after.held = some next)
      (hat : after.At source done text) : AfterDot source done text reserved (.ok none after)
  | fault {fault : Fault} {place : Location} {last : Reader} (hfault : first text = .error fault)
      (hplace : place.Shows source text) :
      AfterDot source done text reserved (.error (.lexical fault place) last)

theorem At.afterDot (h : reader.At source done text) (hh : reader.held = none)
    (hdone : ∀ link ∈ done.getLast?, link.kind ≠ .endOfInput) :
    AfterDot source done text reserved (wordAfterDot? reserved reader) := by
  have htakes := h.take_takes
  cases htake : take reader with
  | error error last =>
    rw [htake] at htakes
    rw [wordAfterDot?, bind_eq_error.2 (.inl htake)]
    cases htakes with
    | fault _ hfault => exact .fault hfault (h.rest_eq hh ▸ h.lexes.shows)
  | ok link after =>
    rw [htake] at htakes
    rw [wordAfterDot?, bind_of_ok htake]
    cases htakes with
    | again _ _ hlast hk => exact absurd hk (hdone link hlast)
    | @token _ _ tail hfrom ht hl hheld hat =>
      split
      · rename_i hw
        exact .word hw ht hl hheld hat
      · rename_i hw
        have hfirst : first text = .ok (link.kind, link.raw.toList.length) := by
          rcases hfrom with hfrom | ⟨-, hfirst⟩
          · cases hh.symm.trans hfrom
          · exact hfirst
        rw [bind_of_ok (putBackLast_eq hheld (by simp [hat.chain_eq hheld]))]
        refine .other ?_ hfirst rfl (ht ▸ hat.hold hheld hl)
        rw [ht, hl.opensWord_iff]
        exact hw

/-- Where a reader stands behind a name: what comes next is put back if the name ends with a dot. -/
structure Behind (reader : Reader) (source : List Char) (done : List Link) (name tail : List Char) :
    Prop where
  stands : reader.At source done tail
  dotted : name.getLast? = some '.' → ∃ next, reader.held = some next ∧
    first tail = .ok (next.kind, next.raw.toList.length)
  ended : name.getLast? ≠ some '.' → reader.held = none

/-- What stands before the last word and what follows it makes no difference. -/
theorem Behind.word {word more tail : List Char} (h : reader.Behind source done more tail)
    (hw : IsNameWord reserved (String.ofList word)) (front : List Char) :
    reader.Behind source done (front ++ (word ++ more)) tail where
  stands := h.stands
  dotted hlast := h.dotted ((hw.getLast?_append front).1 hlast)
  ended hlast := h.ended (mt (hw.getLast?_append front).2 hlast)

theorem At.take_dot {tail : List Char} (h : reader.At source done ('.' :: tail))
    (hh : reader.held = none) : ∃ dot after, take reader = .ok dot after ∧
      dot.kind = .punct .dot ∧ dot.raw.toList = ['.'] ∧ after.held = none ∧
      after.At source (done ++ [dot]) tail := by
  have hn := (h.isOpen hh (by simp)).ending
  have hrest := h.rest_eq hh
  have hfirst : first reader.cursor.rest = .ok (.punct .dot, ['.'].length) := by
    rw [hrest]
    exact @first_mark .dot tail
  have hl : IsLexeme (.punct .dot) ['.'] tail := ⟨.punct .dot, trivial⟩
  exact ⟨_, _, (take_of_none hh).trans (scan_of_first hh hn hfirst), rfl,
    nextLink_raw (show _ = ['.'] ++ tail from hrest) _, hh, h.pass hh hn rfl hl⟩

/-! ## Behind a word -/

theorem nameTail_last (h : nameSegment reserved reader.round = .ok (.inr links) after) :
    nameTail reserved reader = .ok links after := by
  rw [nameTail, bind_of_ok (repeatUntil_last h)]
  rfl

theorem nameTail_fails {error : Error} (h : nameSegment reserved reader.round = .error error after) :
    nameTail reserved reader = .error error after :=
  bind_eq_error.2 (.inl (repeatUntil_fails h))

/-- Behind a dot and a word a name goes on as behind a word. -/
theorem nameTail_next (h : nameSegment reserved reader.round = .ok (.inl links) after)
    (hlt : after.unread < reader.unread) :
    nameTail reserved reader = ((links ++ ·) <$> nameTail reserved) after := by
  cases hrun : repeatUntil (nameSegment reserved) after with
  | ok result last =>
    obtain ⟨segments, ending⟩ := result
    have htail : nameTail reserved after = .ok (segments.flatten ++ ending) last :=
      bind_eq_ok.2 ⟨_, _, hrun, rfl⟩
    rw [map_eq_ok.2 ⟨_, htail, rfl⟩]
    refine bind_eq_ok.2 ⟨_, _, repeatUntil_next h hlt hrun, ?_⟩
    dsimp only
    rw [List.flatten_cons, List.append_assoc]
    rfl
  | error error last =>
    have htail : nameTail reserved after = .error error last := bind_eq_error.2 (.inl hrun)
    rw [map_eq_error.2 htail]
    exact bind_eq_error.2 (.inl (repeatUntil_next_fails h hlt hrun))

/-- What comes of reading on behind a word: the rest of the longest name, or a fault behind a dot that
ends it. -/
inductive ReadsRest (source : List Char) (done : List Link) (text : List Char) (reserved : Bool) :
    Parse.Result (List Link) → Prop
  | read {more tail : List Char} {links : List Link} {after : Reader} (ht : text = more ++ tail)
      (hlong : IsLongestRest reserved more tail) (hspelled : Link.spelled links = more)
      (htrivia : ∀ link ∈ links, link.kind.isTrivia = false)
      (hbehind : after.Behind source (done ++ links) more tail) :
      ReadsRest source done text reserved (.ok links after)
  | fault {more tail : List Char} {fault : Fault} {place : Location} {last : Reader}
      (ht : text = more ++ tail) (hlong : IsLongestRest reserved more tail)
      (hdot : more.getLast? = some '.') (hfault : first tail = .error fault)
      (hplace : place.Shows source tail) :
      ReadsRest source done text reserved (.error (.lexical fault place) last)

theorem At.readsRest (h : reader.At source done text) (hh : reader.held = none)
    (hends : WordEnds text) : ReadsRest source done text reserved (nameTail reserved reader) := by
  induction hn : text.length using Nat.strongRecOn generalizing reader done text with
  | ind n ih =>
    have hpeek : reader.round.cursor.peek? = text.head? := by
      rw [Cursor.peek?, cursor_round, h.rest_eq hh]
    by_cases hdot : text.head? = some '.'
    · obtain ⟨text, rfl⟩ := List.head?_eq_some_iff.1 hdot
      obtain ⟨dot, between, htake, hk, hraw, hheld, hat⟩ := h.round.take_dot hh
      have hword : AfterDot source _ text reserved _ := hat.afterDot hheld (by simp [hk])
      generalize hres : wordAfterDot? reserved between = result at hword
      cases hword with
      | @word word after tail hw ht hl hheld' hat' =>
        rw [List.length_cons, ht, List.length_append] at hn
        have hlt : after.unread < reader.unread := by
          rw [hat'.unread_eq, h.unread_eq, List.length_cons, ht, List.length_append]
          omega
        have hname := isNameWord_of_isWord hw hl.spells
        have hrest := ih tail.length (by omega) hat' hheld' (hl.wordEnds hw) rfl
        rw [nameTail_next (nameSegment_word (hpeek.trans hdot) htake hres) hlt]
        generalize hrun : nameTail reserved after = result at hrest
        cases hrest with
        | @read more tail links final ht' hlong hspelled htrivia hbehind =>
          rw [map_eq_ok.2 ⟨_, hrun, rfl⟩]
          refine .read (by simp [ht, ht']) (hlong.cons hname) (by simp [hraw, hspelled]) ?_ ?_
          · rintro link (_ | ⟨_, _ | ⟨_, hlink⟩⟩)
            · rw [hk]
              rfl
            · exact Kind.not_trivia_of_isWord hw
            · exact htrivia link hlink
          · have hbehind := hbehind.word hname ['.']
            simpa using hbehind
        | @fault more tail fault place last ht' hlong hdot hfault hplace =>
          rw [map_eq_error.2 hrun]
          exact .fault (by simp [ht, ht']) (hlong.cons hname) ((hname.getLast?_append ['.']).2 hdot)
            hfault hplace
      | @other next after hnot hfirst hheld' hat' =>
        rw [nameTail_last (nameSegment_other (hpeek.trans hdot) htake hres)]
        refine .read rfl (.dot hnot) (by simpa using hraw) ?_
          ⟨hat', fun _ => ⟨next, hheld', hfirst⟩, by simp⟩
        simp [hk, Kind.isTrivia]
      | @fault fault place last hfault hplace =>
        rw [nameTail_fails (nameSegment_fails (hpeek.trans hdot) htake hres)]
        exact .fault rfl (.dot (not_opensWord_of_error hfault)) rfl hfault hplace
    · rw [nameTail_last (nameSegment_none (by rwa [hpeek]))]
      refine .read rfl (.nil hdot hends) rfl (by simp) ⟨?_, by simp, fun _ => hh⟩
      simpa using h.round

/-! ## A name -/

/-- What comes of asking for a name where `text` comes next. -/
inductive TakesName (reader : Reader) (source : List Char) (done : List Link) (text : List Char)
    (reserved : Bool) : Parse.Result (Option DottedName) → Prop
  | named {words : DottedName} {after : Reader} {name tail : List Char} (ht : text = name ++ tail)
      (hlong : IsLongestName reserved name tail) (hspelled : Link.spelled words.links = name)
      (htrivia : ∀ link ∈ words.links, link.kind.isTrivia = false)
      (hbehind : after.Behind source (done ++ words.links) name tail) :
      TakesName reader source done text reserved (.ok (some words) after)
  | broken {name tail : List Char} {fault : Fault} {place : Location} {last : Reader}
      (ht : text = name ++ tail) (hlong : IsLongestName reserved name tail)
      (hdot : name.getLast? = some '.') (hfault : first tail = .error fault)
      (hplace : place.Shows source tail) :
      TakesName reader source done text reserved (.error (.lexical fault place) last)
  | absent {link : Link} {after : Reader} (hnot : ¬ OpensName reserved text)
      (hfrom : reader.held = some link ∨ first text = .ok (link.kind, link.raw.toList.length))
      (hheld : after.held = some link) (ht : text = link.raw.toList ++ after.cursor.rest)
      (hchained : after.chain.links = done ++ [link] ∨
        link.kind = .endOfInput ∧ done.getLast? = some link ∧ after.chain.links = done) :
      TakesName reader source done text reserved (.ok none after)
  | stray {fault : Fault} {place : Location} {last : Reader} (hnot : ¬ OpensName reserved text)
      (hfault : first text = .error fault) (hplace : place.Shows source text) :
      TakesName reader source done text reserved (.error (.lexical fault place) last)

/-- A name that has a word is read to its end, behind that word. -/
theorem ReadsRest.takesName {between next : Reader} {front : List Link} {rest : List Char}
    (h : ReadsRest source (done ++ front) rest reserved (nameTail reserved next))
    (lead word : List Char) (words : List Link → DottedName)
    (hlinks : ∀ links, (words links).links = front ++ links)
    (hspelled : Link.spelled front = lead ++ word)
    (htrivia : ∀ link ∈ front, link.kind.isTrivia = false)
    (hw : IsNameWord reserved (String.ofList word))
    (hlong : ∀ {more tail}, IsLongestRest reserved more tail →
      IsLongestName reserved (lead ++ (word ++ more)) tail) (ht : text = lead ++ word ++ rest) :
    between.TakesName source done text reserved
      ((do return some (words (← nameTail reserved)) : Parse (Option DottedName)) next) := by
  generalize hrun : nameTail reserved next = result at h
  cases h with
  | @read more tail links after hrest hmore hspelled' htrivia' hbehind =>
    rw [bind_of_ok hrun]
    refine .named (by simp [ht, hrest]) (hlong hmore) ?_ ?_ ?_
    · rw [hlinks, Link.spelled_append, hspelled, hspelled', List.append_assoc]
    · rw [hlinks]
      exact List.forall_mem_append.2 ⟨htrivia, htrivia'⟩
    · rw [hlinks, ← List.append_assoc]
      exact hbehind.word hw lead
  | fault hrest hmore hdot hfault hplace =>
    rw [bind_eq_error.2 (.inl hrun)]
    exact .broken (by simp [ht, hrest]) (hlong hmore) ((hw.getLast?_append lead).2 hdot) hfault hplace

section
variable {between next : Reader} {tail : List Char}

/-- A name that begins with the word that was read last. -/
theorem At.takesName_word (hat : next.At source (done ++ [link]) tail) (hh : next.held = none)
    (hfirst : takeSignificant reader = .ok link next) (hw : link.kind.isWord reserved = true)
    (hl : IsLexeme link.kind link.raw.toList tail) :
    between.TakesName source done (link.raw.toList ++ tail) reserved (takeName? reserved reader) := by
  have hname := isNameWord_of_isWord hw hl.spells
  rw [takeName?, get_bind, bind_of_ok hfirst, if_pos hw]
  refine (hat.readsRest hh (hl.wordEnds hw)).takesName [] link.raw.toList (.mk link)
    (fun links => rfl) (by simp) ?_ hname (fun hlong => ?_) rfl
  · exact List.forall_mem_singleton.2 (Kind.not_trivia_of_isWord hw)
  · exact show IsLongestName reserved (link.raw.toList ++ _) _ from hlong.isLongestName_word hname

/-- A name that begins with the dot that was read last. -/
theorem At.takesName_dot (hat : next.At source (done ++ [link]) tail) (hh : next.held = none)
    (hfirst : takeSignificant reader = .ok link next) (hk : link.kind = .punct .dot)
    (hraw : link.raw.toList = ['.']) :
    between.TakesName source done ('.' :: tail) reserved (takeName? reserved reader) := by
  have hword : AfterDot source _ tail reserved _ := hat.afterDot hh (by simp [hk])
  rw [takeName?, get_bind, bind_of_ok hfirst, if_neg (by simp [hk, Kind.isWord]), if_pos hk]
  generalize hres : wordAfterDot? reserved next = result at hword
  cases hword with
  | @word word last tail hw ht hl hheld hat =>
    have hname := isNameWord_of_isWord hw hl.spells
    rw [List.append_assoc] at hat
    rw [bind_of_ok hres]
    refine (hat.readsRest hheld (hl.wordEnds hw)).takesName ['.'] word.raw.toList
      (fun links => ⟨link, word :: links⟩) (fun links => rfl) (by simp [hraw]) ?_ hname
      (fun hlong => (hlong.cons hname).isLongestName (by simp)) (by simp [ht])
    exact List.forall_mem_cons.2
      ⟨by rw [hk]; rfl, List.forall_mem_singleton.2 (Kind.not_trivia_of_isWord hw)⟩
  | @other following after hnot hfirst hheld hat =>
    rw [bind_of_ok hres]
    refine .named rfl ((IsLongestRest.dot hnot).isLongestName (by simp)) ?_ ?_
      ⟨hat, fun _ => ⟨following, hheld, hfirst⟩, by simp⟩
    · simp [DottedName.links, hraw]
    · simp [DottedName.links, hk, Kind.isTrivia]
  | fault hfault hplace =>
    rw [bind_eq_error.2 (.inl hres)]
    have hlong : IsLongestName reserved ['.'] tail :=
      (IsLongestRest.dot (not_opensWord_of_error hfault)).isLongestName (by simp)
    exact .broken rfl hlong rfl hfault hplace

/-- A token that begins no name is put back. -/
theorem takeName?_other (hh : next.held = none) (hlast : next.chain.links.getLast? = some link)
    (hfirst : takeSignificant reader = .ok link next) (hw : ¬ link.kind.isWord reserved = true)
    (hk : link.kind ≠ .punct .dot) : takeName? reserved reader = .ok none (next.hold link) := by
  rw [takeName?, get_bind, bind_of_ok hfirst, if_neg hw, if_neg hk,
    bind_of_ok (restore_eq hh hlast reader.held)]
  rfl

theorem At.takesName (h : between.At source done text)
    (hskip : takeSignificant reader = take between) :
    between.TakesName source done text reserved (takeName? reserved reader) := by
  have htakes := h.take_takes
  generalize htake : take between = result at htakes
  rw [htake] at hskip
  cases htakes with
  | @token link next tail hfrom ht hl hheld hat =>
    by_cases hw : link.kind.isWord reserved = true
    · exact ht ▸ hat.takesName_word hheld hskip hw hl
    by_cases hk : link.kind = .punct .dot
    · have hraw : link.raw.toList = ['.'] := head_dot hk hl.spells
      rw [ht, hraw]
      exact hat.takesName_dot hheld hskip hk hraw
    · rw [takeName?_other hheld (by simp [hat.chain_eq hheld]) hskip hw hk]
      refine .absent ?_ (hfrom.imp_right And.right) rfl ?_ (.inl (hat.chain_eq hheld))
      · rw [ht, hl.opensName_iff]
        simp [hw, hk]
      · rw [ht]
        exact congrArg _ (hat.rest_eq hheld).symm
  | @again link hh ht hlast hk =>
    obtain rfl := ht
    have hraw : link.raw.toList = [] := by
      refine h.sound.raw_eq_nil ?_ hk
      rw [h.chain_eq hh]
      exact List.mem_of_getLast? hlast
    rw [takeName?_other hh (h.chain_eq hh ▸ hlast) hskip (by simp [hk, Kind.isWord]) (by simp [hk])]
    refine .absent not_opensName_nil (.inr ?_) rfl ?_ (.inr ⟨hk, hlast, h.chain_eq hh⟩)
    · rw [hk, hraw]
      rfl
    · rw [hraw]
      exact (h.rest_eq hh).symm
  | fault hh hfault =>
    rw [takeName?, get_bind, bind_eq_error.2 (.inl hskip)]
    exact .stray (not_opensName_of_error hfault) hfault (h.rest_eq hh ▸ h.lexes.shows)

end

/-! ## What a name is read as -/

namespace TakesName

variable {result : Parse.Result (Option DottedName)}

/-- What opens a name is read as a longest one, if only up to what makes no lexeme. -/
theorem exists_longest (h : reader.TakesName source done text reserved result)
    (hopens : OpensName reserved text) :
    ∃ name tail, text = name ++ tail ∧ IsLongestName reserved name tail := by
  cases h with
  | named ht hlong | broken ht hlong => exact ⟨_, _, ht, hlong⟩
  | absent hnot | stray hnot => exact absurd hopens hnot

/-- The longest name is the one that is read, or its last dot stands before a fault. -/
theorem of_longest {name tail : List Char} (h : reader.TakesName source done text reserved result)
    (ht : text = name ++ tail) (hlong : IsLongestName reserved name tail) :
    (∃ words after, result = .ok (some words) after ∧ Link.spelled words.links = name ∧
      (∀ link ∈ words.links, link.kind.isTrivia = false) ∧
      after.Behind source (done ++ words.links) name tail) ∨
    ∃ fault place last, result = .error (.lexical fault place) last ∧ name.getLast? = some '.' ∧
      first tail = .error fault ∧ place.Shows source tail := by
  have hopens : OpensName reserved text := ht ▸ hlong.opensName
  cases h with
  | named ht' hlong' hspelled htrivia hbehind =>
    obtain ⟨rfl, rfl⟩ := hlong.unique hlong' (ht.symm.trans ht')
    exact .inl ⟨_, _, rfl, hspelled, htrivia, hbehind⟩
  | broken ht' hlong' hdot hfault hplace =>
    obtain ⟨rfl, rfl⟩ := hlong.unique hlong' (ht.symm.trans ht')
    exact .inr ⟨_, _, _, rfl, hdot, hfault, hplace⟩
  | absent hnot | stray hnot => exact absurd hopens hnot

/-- Where nothing opens a name, a token is put back or a fault stops the reader. -/
theorem of_not_opensName (h : reader.TakesName source done text reserved result)
    (hnot : ¬ OpensName reserved text) :
    (∃ link after, result = .ok none after ∧ after.held = some link ∧
      (reader.held = some link ∨ first text = .ok (link.kind, link.raw.toList.length)) ∧
      text = link.raw.toList ++ after.cursor.rest ∧
      (after.chain.links = done ++ [link] ∨
        link.kind = .endOfInput ∧ done.getLast? = some link ∧ after.chain.links = done)) ∨
    ∃ fault place last, result = .error (.lexical fault place) last ∧ first text = .error fault ∧
      place.Shows source text := by
  cases h with
  | named ht hlong | broken ht hlong => exact absurd (ht ▸ hlong.opensName) hnot
  | absent _ hfrom hheld ht hchained => exact .inl ⟨_, _, rfl, hheld, hfrom, ht, hchained⟩
  | stray _ hfault hplace => exact .inr ⟨_, _, _, rfl, hfault, hplace⟩

end TakesName

/-! ## Asking for a name -/

/-- What it is to ask for a name, where `done` was read of the text `source` and the blanks and comments
`gap` and then `rest` come next. -/
structure ReadsName (reader : Reader) (source : List Char) (done gap : List Link) (rest : List Char)
    (reserved : Bool) : Prop where
  /-- Without a permitted word or a dot the lexeme that comes next is chained and put back. The end of
  the input is chained only once. -/
  absent : ¬ OpensName reserved rest → ∀ {kind length}, first rest = .ok (kind, length) →
    ∃ link links after, takeName? reserved reader = .ok none after ∧ after.held = some link ∧
      rest = link.raw.toList ++ after.cursor.rest ∧
      (reader.held = some link ∨ kind = link.kind ∧ length = link.raw.toList.length) ∧
      links.map Link.lexeme = gap.map Link.lexeme ∧
      (after.chain.links = done ++ (links ++ [link]) ∨ link.kind = .endOfInput ∧
        (done ++ links).getLast? = some link ∧ after.chain.links = done ++ links)
  /-- Without either, what makes no lexeme is an error at its place. -/
  stray : ¬ OpensName reserved rest → ∀ {fault}, first rest = .error fault →
    ∃ place last, takeName? reserved reader = .error (.lexical fault place) last ∧
      place.Shows source rest
  /-- Otherwise a longest name comes next. -/
  longest : OpensName reserved rest → ∃ name tail, rest = name ++ tail ∧
    IsLongestName reserved name tail
  /-- If it ends with a dot that no lexeme follows, that is an error at the place behind it. -/
  broken : ∀ {name tail}, rest = name ++ tail → IsLongestName reserved name tail →
    name.getLast? = some '.' → ∀ {fault}, first tail = .error fault →
    ∃ place last, takeName? reserved reader = .error (.lexical fault place) last ∧
      place.Shows source tail
  /-- If not, it is chained behind the gap and read whole. -/
  named : ∀ {name tail}, rest = name ++ tail → IsLongestName reserved name tail →
    (name.getLast? = some '.' → ∃ kind length, first tail = .ok (kind, length)) →
    ∃ words links after, takeName? reserved reader = .ok (some words) after ∧
      words.text.toList = name ∧ after.chain.text words.span = words.text ∧
      (∀ link ∈ words.links, link.kind.isTrivia = false) ∧
      links.map Link.lexeme = gap.map Link.lexeme ∧
      after.Behind source (done ++ (links ++ words.links)) name tail

theorem At.readsName {gap : List Link} {rest : List Char} (h : reader.At source done text)
    (hgap : LeadingGap text gap rest) : reader.ReadsName source done gap rest reserved := by
  obtain ⟨links, between, hskip, hlexemes, hat, hheld⟩ := h.skipTrivia_clear hgap
  have htakes : between.TakesName source (done ++ links) rest reserved (takeName? reserved reader) :=
    hat.takesName (bind_of_ok hskip)
  generalize hrun : takeName? reserved reader = result at htakes
  constructor
  · intro hnot kind length hfirst
    obtain ⟨link, after, rfl, hheld', hfrom, ht, hchained⟩ | ⟨_, _, _, -, hfault, -⟩ :=
      htakes.of_not_opensName hnot
    · refine ⟨link, links, after, hrun, hheld', ht, ?_, hlexemes, by rwa [← List.append_assoc]⟩
      refine hfrom.imp (fun hlink => (hheld link hlink).1) fun hsame => ?_
      cases hfirst.symm.trans hsame
      exact ⟨rfl, rfl⟩
    · cases hfirst.symm.trans hfault
  · intro hnot fault hfault
    obtain ⟨link, _, -, -, hlink | hsame, -⟩ | ⟨_, place, last, rfl, hfault', hplace⟩ :=
      htakes.of_not_opensName hnot
    · obtain ⟨found, hfirst⟩ := (hat.held_lexeme link hlink).exists_first
      have ht : rest = link.raw.toList ++ between.cursor.rest := by
        rw [hat.text_eq, hlink]
        simp
      cases hfault.symm.trans (ht ▸ hfirst)
    · cases hfault.symm.trans hsame
    · cases hfault.symm.trans hfault'
      exact ⟨place, last, hrun, hplace⟩
  · exact htakes.exists_longest
  · intro name tail ht hlong hdot fault hfault
    obtain ⟨_, _, -, -, -, hbehind⟩ | ⟨_, place, last, rfl, -, hfault', hplace⟩ :=
      htakes.of_longest ht hlong
    · obtain ⟨next, -, hfirst⟩ := hbehind.dotted hdot
      cases hfault.symm.trans hfirst
    · cases hfault.symm.trans hfault'
      exact ⟨place, last, hrun, hplace⟩
  · intro name tail ht hlong hscans
    obtain ⟨words, after, rfl, hspelled, htrivia, hbehind⟩ | ⟨_, _, _, -, hdot, hfault, -⟩ :=
      htakes.of_longest ht hlong
    · refine ⟨words, links, after, hrun, ?_, ?_, htrivia, hlexemes, by rwa [← List.append_assoc]⟩
      · rw [words.toList_text, hspelled]
      · have hchain := hbehind.stands.links_eq
        rw [List.append_assoc] at hchain
        exact words.text_span hchain
    · obtain ⟨kind, length, hfirst⟩ := hscans hdot
      cases hfault.symm.trans hfirst

/-! ## Sessions -/

/-- The text that comes next: that of a token that was put back, and what the cursor is before. -/
def pending (reader : Reader) : List Char :=
  Link.spelled reader.held.toList ++ reader.cursor.rest

/-- The last token is the lexeme that ends where the cursor is. -/
def Adjoins (reader : Reader) : Prop :=
  ∀ link ∈ reader.chain.links.getLast?, IsLexeme link.kind link.raw.toList reader.cursor.rest

theorem adjoins_ofText (text : List Char) : (Reader.ofText text).Adjoins := by
  rintro link ⟨⟩

theorem Move.adjoins (h : Move reader after) (ha : reader.Adjoins) : after.Adjoins := by
  cases h with
  | lexeme hh hn ht hl =>
    intro link hlink
    rw [links_pass, List.getLast?_concat] at hlink
    cases hlink
    rw [nextLink_raw ht, rest_pass ht]
    exact hl
  | round => exact ha
  | release => exact ha
  | hold => exact ha

theorem Moves.adjoins (h : Moves reader after) (ha : reader.Adjoins) : after.Adjoins := by
  induction h with
  | refl => exact ha
  | tail _ hmove ih => exact hmove.adjoins ih

/-- Where a token that was put back is the last one, the reader stands before the pending text. -/
theorem Adjoins.at_pending (ha : reader.Adjoins) (hs : reader.Sound) (hl : reader.Lexes source)
    (hslot : reader.chain.links = done ++ reader.held.toList) :
    reader.At source done reader.pending where
  sound := hs
  lexes := hl
  links_eq := hslot
  text_eq := rfl
  held_lexeme link hlink := by
    refine ha link ?_
    rw [hslot, show reader.held = some link from hlink]
    exact List.getLast?_concat

end Reader

namespace Request

open Reader

variable {reader : Reader}

/-- Unless a string or a comment is left open, the last token goes on ending at the cursor. -/
theorem act_adjoins (request : Request) (hs : reader.Sound) (ha : reader.Adjoins) :
    (∀ u after, request.act reader = .ok u after → after.Adjoins) ∧
      ∀ error after, request.act reader = .error error after → ¬ error.IsUnterminated →
        after.Adjoins := by
  by_cases hback : ∃ id, request = putBack id
  · obtain ⟨id, rfl⟩ := hback
    obtain ⟨back, hact, hback⟩ : ∃ back, (putBack id).act reader = .ok () back ∧ back.Adjoins := by
      rw [act, get_bind]
      cases hh : reader.held with
      | some held => exact ⟨reader, rfl, ha⟩
      | none =>
        cases reader.chain.link? id with
        | none => exact ⟨reader, rfl, ha⟩
        | some link => exact ⟨reader.hold link, putBack_eq hh link, ha⟩
    refine ⟨fun u after h => ?_, fun error after h => ?_⟩
    · cases hact.symm.trans h
      exact hback
    · cases hact.symm.trans h
  · have hruns := act_runs (fun id hid => hback ⟨id, hid⟩) hs
    refine ⟨fun u after h => (hruns.ok u after h).1.moves.adjoins ha, fun error after h hclosed => ?_⟩
    obtain ⟨-, between, hleads, rfl | ⟨hopen, -⟩⟩ := hruns.error error after h
    · exact hleads.moves.adjoins ha
    · exact absurd hopen hclosed

theorem answer_adjoins {requests : List Request} (hs : reader.Sound) (ha : reader.Adjoins)
    (hclosed : ∀ error ∈ (answer requests reader).1, ¬ error.IsUnterminated) :
    (answer requests reader).2.Adjoins := by
  induction requests generalizing reader with
  | nil => exact ha
  | cons request requests ih =>
    obtain ⟨hok, herror⟩ := act_follows request hs
    obtain ⟨haok, haerror⟩ := act_adjoins request hs ha
    rw [answer] at hclosed ⊢
    cases hact : request.act reader with
    | ok u after =>
      rw [hact] at hclosed
      exact ih ((hok u after hact).sound hs) (haok u after hact) hclosed
    | error error after =>
      rw [hact] at hclosed
      obtain ⟨hfirst, hclosed⟩ := List.forall_mem_cons.1 hclosed
      exact ih ((herror error after hact).sound hs) (haerror error after hact hfirst) hclosed

end Request

/-- In any session in which no string and no comment was left open: where nothing or the last token was
put back, the longest name that comes next is what is read, behind blanks and comments that are closed. -/
theorem session_readsName {text : String} {requests : List Request} {done gap : List Link}
    {rest : List Char} (reserved : Bool)
    (hclosed : ∀ error ∈ (Request.session text requests).1, ¬ error.IsUnterminated)
    (hslot : (Request.session text requests).2.chain.links =
      done ++ (Request.session text requests).2.held.toList)
    (hgap : LeadingGap (Request.session text requests).2.pending gap rest) :
    (Request.session text requests).2.ReadsName text.toList done gap rest reserved := by
  have hadjoins := Request.answer_adjoins (Reader.sound_ofText text.toList)
    (Reader.adjoins_ofText text.toList) hclosed
  have hat := hadjoins.at_pending (Request.session_sound text requests)
    (Request.session_lexes text requests).1 hslot
  exact hat.readsName hgap

/-- The word that was put back begins the name. Whether a reserved word may follow a dot decides how far
it goes: a dot that ends it is followed by that word, which is put back, or else by no lexeme. -/
theorem session_readsName_reserved :
    let reader := (Request.session " a.struct.%" [.takeSignificant, .putBack 1]).2
    (∃ words after, Parse.takeName? false reader = .ok (some words) after ∧
      words.text = "a." ∧ after.chain.text words.span = "a." ∧
      after.held.map Link.kind = some (.keyword .struct)) ∧
    ∃ place last, Parse.takeName? true reader =
        .error (.lexical (.unexpectedCharacter '%') place) last ∧
      place.Shows " a.struct.%".toList ['%'] := by
  intro reader
  have hreads : ∀ reserved, reader.ReadsName " a.struct.%".toList [⟨0, .blank .space, " ", .start⟩] []
      ['a', '.', 's', 't', 'r', 'u', 'c', 't', '.', '%'] reserved := by
    intro reserved
    have herrors : (Request.session " a.struct.%" [.takeSignificant, .putBack 1]).1 = [] := by
      decide +kernel
    exact session_readsName reserved (by rw [herrors]; simp) (by decide +kernel)
      ⟨by decide +kernel, Link.isGap_nil, trivial, by decide⟩
  have hword : ∀ reserved, IsNameWord reserved (String.ofList ['a']) := fun reserved =>
    isNameWord_of_isWord (show Kind.isWord reserved .ident = true from rfl)
      (.ident (by decide) (by simp) (by decide))
  have hstruct : IsLexeme (.keyword .struct) ['s', 't', 'r', 'u', 'c', 't'] ['.', '%'] :=
    ⟨.keyword .struct, wordEnds_dot _⟩
  constructor
  · have hlong : IsLongestName false ['a', '.'] ['s', 't', 'r', 'u', 'c', 't', '.', '%'] :=
      (IsLongestRest.dot (hstruct.opensWord_iff.not.2 (by decide))).isLongestName_word (hword false)
    have hfirst := first_of_isLexeme hstruct
      (Kind.plain_of_isWord (show Kind.isWord true _ = true from rfl))
    obtain ⟨words, links, after, hrun, htext, hspan, -, -, hbehind⟩ :=
      (hreads false).named rfl hlong fun _ => ⟨_, _, hfirst⟩
    obtain ⟨next, hheld, hnext⟩ := hbehind.dotted rfl
    obtain ⟨hkind, -⟩ := Prod.mk.inj (Except.ok.inj (hfirst.symm.trans hnext))
    have hname : words.text = "a." := String.toList_inj.1 htext
    exact ⟨words, after, hrun, hname, hspan.trans hname, by rw [hheld, Option.map_some, ← hkind]⟩
  · have hfault : first ['%'] = .error (.unexpectedCharacter '%') := by decide
    have hlong : IsLongestName true ['a', '.', 's', 't', 'r', 'u', 'c', 't', '.'] ['%'] :=
      ((IsLongestRest.dot (not_opensWord_of_error hfault)).cons
        (isNameWord_of_isWord rfl hstruct.spells)).isLongestName_word (hword true)
    exact (hreads true).broken rfl hlong rfl hfault

end ThriftSyntax
