import ThriftSyntax.Proofs.Derivation.Reads
import ThriftSyntax.Reader.Literal

/-!
# Reading strings and numbers

The two lexemes that only the reader of a string or of a number takes whole. What is read where a
significant token comes next is told apart once: `FindsString` and `FindsNumber` are the cases.
-/

namespace ThriftSyntax.Parse

open Reader

variable {reader after : Reader} {link : Link}

/-! ## Where a significant token comes next -/

/-- Reads a string if a quotation mark comes next, where a significant token does. -/
def stringHere : Parse (Option Link) := do
  let reader ← get
  match reader.held, reader.cursor.rest with
  | none, quote :: body =>
    if quote = '"' ∨ quote = '\'' then
      match Lexeme.string quote body with
      | (length, true) => some <$> chainLexeme .string length
      | (length, false) => fail .unterminatedString length
    else
      return none
  | _, _ => return none

/-- Reads the significant token that comes next, and a sign together with its number. -/
def numberHere : Parse Link := do
  let reader ← get
  match reader.held, Lexeme.signed? reader.cursor.rest with
  | none, some length => chainLexeme .number length
  | _, _ => take

theorem takeString?_eq : takeString? = skipTrivia >>= fun _ => stringHere := rfl

theorem takeNumber_eq : takeNumber = skipTrivia >>= fun _ => numberHere := rfl

theorem takeString?_eq_ok {found : Option Link} :
    takeString? reader = .ok found after ↔
      ∃ between, skipTrivia reader = .ok () between ∧ stringHere between = .ok found after :=
  unit_bind_eq_ok

theorem takeNumber_eq_ok :
    takeNumber reader = .ok link after ↔
      ∃ between, skipTrivia reader = .ok () between ∧ numberHere between = .ok link after :=
  unit_bind_eq_ok

theorem stringHere_of_none
    (h : reader.held = none → ∀ c ∈ reader.cursor.rest.head?, c ≠ '"' ∧ c ≠ '\'') :
    stringHere reader = .ok none reader := by
  rw [stringHere, get_bind]
  cases hh : reader.held with
  | some held => rfl
  | none =>
    cases ht : reader.cursor.rest with
    | nil => rfl
    | cons c body =>
      obtain ⟨hdouble, hsingle⟩ := h hh c (by simp [ht])
      dsimp only
      rw [if_neg (by simp [hdouble, hsingle])]
      rfl

theorem stringHere_of_held (hh : reader.held = some link) : stringHere reader = .ok none reader :=
  stringHere_of_none fun hn => by cases hn.symm.trans hh

theorem stringHere_of_quote {quote : Char} {body : List Char} {length : Nat} {closed : Bool}
    (hh : reader.held = none) (ht : reader.cursor.rest = quote :: body)
    (hq : quote = '"' ∨ quote = '\'') (hstring : Lexeme.string quote body = (length, closed)) :
    stringHere reader =
      if closed then .ok (some (reader.nextLink .string length)) (reader.pass .string length)
      else .error (.lexical .unterminatedString reader.cursor.location) (reader.drop length) := by
  rw [stringHere, get_bind, hh, ht]
  dsimp only
  rw [if_pos hq, hstring]
  cases closed with
  | false => rfl
  | true => exact map_eq_ok.2 ⟨_, chainLexeme_eq hh .string length, rfl⟩

theorem stringHere_of_isLexeme {raw tail : List Char} (hh : reader.held = none)
    (ht : reader.cursor.rest = raw ++ tail) (hl : Lexeme.IsLexeme .string raw tail) :
    stringHere reader =
      .ok (some (reader.nextLink .string raw.length)) (reader.pass .string raw.length) := by
  obtain ⟨quote, body, heq, hq, hstring⟩ := Lexeme.string_of_isLexeme hl
  exact stringHere_of_quote hh (ht.trans heq) hq hstring

/-- What comes of asking for a string: no mark begins one, or it is read whole, or it has no end. -/
inductive FindsString (reader : Reader) : Parse.Result (Option Link) → Prop
  | absent (h : reader.held = none → ∀ c ∈ reader.cursor.rest.head?, c ≠ '"' ∧ c ≠ '\'') :
      FindsString reader (.ok none reader)
  | closed {raw tail : List Char} (hh : reader.held = none) (ht : reader.cursor.rest = raw ++ tail)
      (hl : Lexeme.IsLexeme .string raw tail) :
      FindsString reader
        (.ok (some (reader.nextLink .string raw.length)) (reader.pass .string raw.length))
  | unclosed {quote : Char} {body : List Char} {length : Nat} (hh : reader.held = none)
      (ht : reader.cursor.rest = quote :: body) (hq : quote = '"' ∨ quote = '\'')
      (hstring : Lexeme.string quote body = (length, false)) :
      FindsString reader
        (.error (.lexical .unterminatedString reader.cursor.location) (reader.drop length))

theorem stringHere_finds (reader : Reader) : FindsString reader (stringHere reader) := by
  by_cases h : reader.held = none → ∀ c ∈ reader.cursor.rest.head?, c ≠ '"' ∧ c ≠ '\''
  · rw [stringHere_of_none h]
    exact .absent h
  obtain ⟨hh, quote, hquote, hq⟩ : reader.held = none ∧
      ∃ c ∈ reader.cursor.rest.head?, c = '"' ∨ c = '\'' := by
    simpa [or_iff_not_imp_left] using h
  obtain ⟨body, ht⟩ := List.head?_eq_some_iff.1 hquote
  cases hstring : Lexeme.string quote body with
  | mk length closed =>
    rw [stringHere_of_quote hh ht hq hstring]
    cases closed with
    | false => exact .unclosed hh ht hq hstring
    | true =>
      obtain ⟨raw, tail, hraw, rfl, hl⟩ := Lexeme.isLexeme_of_string hq hstring
      exact .closed hh (ht.trans hraw) hl

theorem numberHere_of_plain (h : reader.held = none → Lexeme.signed? reader.cursor.rest = none) :
    numberHere reader = take reader := by
  rw [numberHere, get_bind]
  cases hh : reader.held with
  | some held => rfl
  | none => rw [h hh]

theorem numberHere_of_held (hh : reader.held = some link) : numberHere reader = take reader :=
  numberHere_of_plain fun hn => by cases hn.symm.trans hh

theorem numberHere_of_signed {raw tail : List Char} (hh : reader.held = none)
    (ht : reader.cursor.rest = raw ++ tail) (hl : Lexeme.IsLexeme .number raw tail)
    (hsign : raw.head? = some '-') :
    numberHere reader = .ok (reader.nextLink .number raw.length) (reader.pass .number raw.length) := by
  rw [numberHere, get_bind, hh, ht, Lexeme.signed?_of_isLexeme hl hsign]
  exact chainLexeme_eq hh .number raw.length

/-- What comes of asking for a number: a token as it is read anywhere, or a number with its sign. -/
inductive FindsNumber (reader : Reader) : Parse.Result Link → Prop
  | plain (h : reader.held = none → Lexeme.signed? reader.cursor.rest = none) :
      FindsNumber reader (take reader)
  | signed {raw tail : List Char} (hh : reader.held = none) (ht : reader.cursor.rest = raw ++ tail)
      (hl : Lexeme.IsLexeme .number raw tail) (hsign : raw.head? = some '-') :
      FindsNumber reader
        (.ok (reader.nextLink .number raw.length) (reader.pass .number raw.length))

theorem numberHere_finds (reader : Reader) : FindsNumber reader (numberHere reader) := by
  by_cases h : reader.held = none → Lexeme.signed? reader.cursor.rest = none
  · rw [numberHere_of_plain h]
    exact .plain h
  obtain ⟨hh, hsigned⟩ := Classical.not_imp.1 h
  obtain ⟨length, hlength⟩ := Option.ne_none_iff_exists'.1 hsigned
  obtain ⟨raw, tail, ht, rfl, hl, hsign⟩ := Lexeme.isLexeme_of_signed? hlength
  rw [numberHere_of_signed hh ht hl hsign]
  exact .signed hh ht hl hsign

/-! ## What is read is a terminal -/

/-- A lexeme at the cursor that is no trivia and no end of input is a terminal. -/
theorem reads_pass {between : Reader} {kind : Kind} {raw tail : List Char}
    (hr : reader.Reads [] between) (hh : between.held = none)
    (ht : between.cursor.rest = raw ++ tail) (hl : Lexeme.IsLexeme kind raw tail)
    (hk : kind.isTrivia = false) (hne : kind ≠ .endOfInput) :
    Lexeme.Spells kind (between.nextLink kind raw.length).raw.toList ∧
      reader.Reads [.token (between.nextLink kind raw.length)] (between.pass kind raw.length) := by
  have htook := took_pass hr.valid hh ht hl
  exact ⟨htook.spells, hr.trans (htook.reads hk hne)⟩

theorem takeString?_sound (hr : reader.Valid) (h : takeString? reader = .ok (some link) after) :
    link.kind = .string ∧ Lexeme.Spells link.kind link.raw.toList ∧
      reader.Reads [.token link] after := by
  obtain ⟨between, hskip, hhere⟩ := takeString?_eq_ok.1 h
  have hfinds := stringHere_finds between
  rw [hhere] at hfinds
  cases hfinds with
  | closed hh ht hl =>
    have hread := reads_pass (skipTrivia_reads hr hskip).1 hh ht hl rfl (by simp)
    exact ⟨rfl, hread⟩

theorem takeNumber_sound (hr : reader.Valid) (h : takeNumber reader = .ok link after)
    (hk : link.kind = .number) :
    Lexeme.Spells link.kind link.raw.toList ∧ reader.Reads [.token link] after := by
  obtain ⟨between, hskip, hhere⟩ := takeNumber_eq_ok.1 h
  obtain ⟨hreads, -⟩ := skipTrivia_reads hr hskip
  have hfinds := numberHere_finds between
  generalize hresult : numberHere between = result at hfinds
  cases hfinds with
  | plain =>
    obtain ⟨htook, -⟩ := take_sound hreads.valid (hresult.symm.trans hhere)
    exact ⟨htook.spells, hreads.trans (htook.reads (by simp [hk, Kind.isTrivia]) (by simp [hk]))⟩
  | signed hh ht hl =>
    cases hresult.symm.trans hhere
    have hread := reads_pass hreads hh ht hl rfl (by simp)
    exact hread

/-! ## Where one stands, it is read -/

variable {all : List Link} {rest : List Char} {xs : List Terminal}

/-- A lexeme that no token held can be is still at the cursor. -/
theorem held_eq_none {ahead : List Link} (hr : reader.Valid)
    (h : reader.Before all rest (link :: ahead))
    (hp : ¬ Lexeme.Plain link.kind link.raw.toList) : reader.held = none := by
  cases hh : reader.held with
  | none => rfl
  | some held =>
    obtain rfl := held_eq hh h
    exact absurd (hr.held_plain link hh).plain hp

/-- A lexeme that is no end of input is passed over where it stands. -/
theorem pass_complete {ahead : List Link} (hr : reader.Valid) (hh : reader.held = none)
    (hne : link.kind ≠ .endOfInput) (h : reader.Before all rest (link :: ahead)) :
    ∃ after, reader.nextLink link.kind link.raw.toList.length = link ∧
      reader.pass link.kind link.raw.toList.length = after ∧ after.Valid ∧
      after.Before all rest ahead := by
  obtain ⟨ht, hl, hnext, hafter⟩ := pass_of_before hh h
  have htook := took_pass hr hh ht hl
  rw [hnext] at htook
  exact ⟨_, hnext, rfl, htook.valid hne, hafter⟩

theorem takeString?_complete (hr : reader.Valid) (hk : link.kind = .string)
    (h : reader.Faces all rest (.token link :: xs)) :
    ∃ after, takeString? reader = .ok (some link) after ∧ after.Valid ∧
      after.Faces all rest xs := by
  obtain ⟨between, hskip, hv, hat, hf⟩ := skipTrivia_faces hr h
  obtain ⟨ahead, hb, -, -, hxs⟩ := hat.exists_before hf
  rw [Terminal.links_token, List.singleton_append] at hb
  have hh := held_eq_none hv hb (by simp [Lexeme.Plain, hk])
  obtain ⟨ht, hl, -, -⟩ := pass_of_before hh hb
  obtain ⟨after, hnext, hpass, hafter, hahead⟩ := pass_complete hv hh (by simp [hk]) hb
  rw [hk] at hl hnext hpass
  refine ⟨after, takeString?_eq_ok.2 ⟨between, hskip, ?_⟩, hafter, ahead, hahead, hxs⟩
  rw [stringHere_of_isLexeme hh ht hl, hnext, hpass]

/-- A token that has no sign is no number with one. -/
theorem signed?_eq_none_of_before {ahead : List Link} (hh : reader.held = none)
    (hk : link.kind ≠ .endOfInput) (hs : link.raw.toList.head? ≠ some '-')
    (h : reader.Before all rest (link :: ahead)) : Lexeme.signed? reader.cursor.rest = none := by
  obtain ⟨ht, hl, -, -⟩ := pass_of_before hh h
  obtain ⟨c, front, hc⟩ := List.exists_cons_of_ne_nil (hl.spells.ne_nil hk)
  refine Option.eq_none_iff_forall_ne_some.2 fun length hsigned => hs ?_
  obtain ⟨raw, tail, hraw, -, -, hhead⟩ := Lexeme.isLexeme_of_signed? hsigned
  obtain ⟨front', rfl⟩ := List.head?_eq_some_iff.1 hhead
  rw [ht, hc] at hraw
  rw [hc, (List.cons.inj hraw).1, List.head?_cons]

theorem takeNumber_complete (hr : reader.Valid) (hk : link.kind = .number)
    (h : reader.Faces all rest (.token link :: xs)) :
    ∃ after, takeNumber reader = .ok link after ∧ after.Valid ∧ after.Faces all rest xs := by
  obtain ⟨between, hskip, hv, hat, hf⟩ := skipTrivia_faces hr h
  obtain ⟨ahead, hb, -, -, hxs⟩ := hat.exists_before hf
  rw [Terminal.links_token, List.singleton_append] at hb
  by_cases hs : link.raw.toList.head? = some '-'
  · have hh := held_eq_none hv hb (by simp [Lexeme.Plain, hk, hs])
    obtain ⟨ht, hl, -, -⟩ := pass_of_before hh hb
    obtain ⟨after, hnext, hpass, hafter, hahead⟩ := pass_complete hv hh (by simp [hk]) hb
    rw [hk] at hl hnext hpass
    refine ⟨after, takeNumber_eq_ok.2 ⟨between, hskip, ?_⟩, hafter, ahead, hahead, hxs⟩
    rw [numberHere_of_signed hh ht hl hs, hnext, hpass]
  · have hp : Lexeme.Plain link.kind link.raw.toList := by simp [Lexeme.Plain, hk, hs]
    obtain ⟨after, htake, hahead⟩ := take_complete hv hp hb
    refine ⟨after, takeNumber_eq_ok.2 ⟨between, hskip, ?_⟩,
      (take_sound hv htake).1.valid (by simp [hk]), ahead, hahead, hxs⟩
    rw [numberHere_of_plain fun hh => signed?_eq_none_of_before hh (by simp [hk]) hs hb]
    exact htake

end ThriftSyntax.Parse
