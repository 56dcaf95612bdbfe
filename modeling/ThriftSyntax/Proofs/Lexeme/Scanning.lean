import Mathlib.Data.List.TakeWhile
import Mathlib.Data.List.Infix
import ThriftSyntax.Proofs.Lexeme.Spelling

/-!
# Scanning is spelling

Each scanner finds exactly the lexeme at the front of a text: `first` the one that may stand
anywhere, `string` and `signed?` the two that are read where they are asked for. Each agreement has
two halves: what is found is a lexeme, and a lexeme is found.
-/

namespace ThriftSyntax.Lexeme

/-- What `first` may find: neither a string nor a number with a sign. -/
def Plain (kind : Kind) (raw : List Char) : Prop :=
  kind ≠ .string ∧ (kind = .number → raw.head? ≠ some '-')

/-! ## Runs of characters -/

section
variable {p : Char → Bool} {text rest : List Char}

theorem run_append (hall : ∀ c ∈ text, p c = true) (hend : ∀ c ∈ rest.head?, p c = false) :
    run p (text ++ rest) = text.length := by
  unfold run
  rw [List.takeWhile_append_of_pos hall]
  cases rest with
  | nil => simp
  | cons c rest => simp [hend c rfl]

/-- Cuts a text where its run ends. -/
theorem exists_run (p : Char → Bool) (text : List Char) :
    ∃ front rest, text = front ++ rest ∧ (∀ c ∈ front, p c = true) ∧
      ∀ c ∈ rest.head?, p c = false := by
  refine ⟨text.takeWhile p, text.dropWhile p, List.takeWhile_append_dropWhile.symm,
    fun c hc => List.mem_takeWhile_imp hc, fun c hc => ?_⟩
  have := List.head?_dropWhile_not p text
  rw [Option.mem_def.1 hc] at this
  simpa using this

end

/-! ## Numbers -/

theorem isDigits_iff {text : List Char} :
    Numeral.isDigits text = true ↔ text ≠ [] ∧ ∀ c ∈ text, c.isDigit = true := by
  simp [Numeral.isDigits]

theorem head_isDigit {text : List Char} (h : Numeral.isDigits text = true) :
    ∃ c tail, text = c :: tail ∧ c.isDigit = true := by
  obtain ⟨hne, hall⟩ := isDigits_iff.1 h
  obtain ⟨c, tail, rfl⟩ := List.exists_cons_of_ne_nil hne
  exact ⟨c, tail, rfl, hall c (by simp)⟩

theorem dot_notMem {text : List Char} (h : Numeral.isDigits text = true) : '.' ∉ text := by
  intro hm
  exact absurd ((isDigits_iff.1 h).2 _ hm) (by decide)

theorem numberLength_integer {whole rest : List Char} (hw : Numeral.isDigits whole = true)
    (hend : ∀ c ∈ rest.head?, c.isDigit = false)
    (hdot : ∀ c text, rest = '.' :: c :: text → c.isDigit = false) :
    numberLength (whole ++ rest) = whole.length := by
  unfold numberLength
  dsimp only
  rw [run_append (isDigits_iff.1 hw).2 hend, List.drop_left]
  split
  · next fraction =>
    have : run Char.isDigit fraction = 0 := by
      cases fraction with
      | nil => rfl
      | cons c text => simp [run, hdot c text rfl]
    rw [this, if_pos rfl]
  · rfl

theorem numberLength_decimal {whole fraction rest : List Char}
    (hw : Numeral.isDigits whole = true) (hf : Numeral.isDigits fraction = true)
    (hend : ∀ c ∈ rest.head?, c.isDigit = false) :
    numberLength (whole ++ '.' :: fraction ++ rest) = (whole ++ '.' :: fraction).length := by
  obtain ⟨hne, hall⟩ := isDigits_iff.1 hf
  have hdot : ∀ c ∈ ('.' :: (fraction ++ rest)).head?, c.isDigit = false := by
    rintro c ⟨⟩
    decide
  unfold numberLength
  dsimp only
  rw [List.append_assoc, List.cons_append, run_append (isDigits_iff.1 hw).2 hdot, List.drop_left]
  simp only [run_append hall hend, List.length_eq_zero_iff, hne, ↓reduceIte, List.length_append,
    List.length_cons]
  omega

/-- Digits at the front of a text begin a number that stops somewhere. -/
theorem exists_number {c : Char} (hc : c.isDigit = true) (text : List Char) :
    ∃ raw rest, c :: text = raw ++ rest ∧ Spells .number raw ∧ raw.head? = some c ∧
      EndsBefore .number raw rest := by
  obtain ⟨whole, rest, ht, hall, hend⟩ := exists_run Char.isDigit (c :: text)
  have hw : Numeral.isDigits whole = true := by
    refine isDigits_iff.2 ⟨?_, hall⟩
    rintro rfl
    rw [List.nil_append] at ht
    simp [hend c (by rw [← ht]; rfl)] at hc
  obtain ⟨d, tail, rfl, hd⟩ := head_isDigit hw
  obtain ⟨rfl, ht⟩ : c = d ∧ text = tail ++ rest := by simpa using ht
  by_cases hdot : ∃ e fraction, rest = '.' :: e :: fraction ∧ e.isDigit = true
  · obtain ⟨e, text', rfl, he⟩ := hdot
    obtain ⟨fraction, after, hf, hfall, hfend⟩ := exists_run Char.isDigit (e :: text')
    have hfd : Numeral.isDigits fraction = true := by
      refine isDigits_iff.2 ⟨?_, hfall⟩
      rintro rfl
      rw [List.nil_append] at hf
      simp [hfend e (by rw [← hf]; rfl)] at he
    refine ⟨c :: tail ++ '.' :: fraction, after, by simp [ht, hf], ?_, rfl, hfend, .inl (by simp)⟩
    simpa using Spells.decimal (.inl rfl) hw hfd
  · refine ⟨c :: tail, rest, by simp [ht], ?_, rfl, hend, .inr ?_⟩
    · simpa using Spells.integer (.inl rfl) hw
    · intro e fraction h
      by_contra he
      exact hdot ⟨e, fraction, h, by simpa using he⟩

theorem numberLength_of_isLexeme {raw rest : List Char} (h : IsLexeme .number raw rest)
    (hs : raw.head? ≠ some '-') : numberLength (raw ++ rest) = raw.length := by
  obtain ⟨hsp, hend, hdot⟩ := h
  cases hsp with
  | integer hsign hw =>
    rcases hsign with rfl | rfl
    · refine numberLength_integer hw hend ?_
      exact hdot.resolve_left (dot_notMem hw)
    · simp at hs
  | decimal hsign hw hf =>
    rcases hsign with rfl | rfl
    · exact numberLength_decimal hw hf hend
    · simp at hs

/-! ## Comments -/

theorem commentEnd?_of_notMem {body : List Char} (h : ¬ ['*', '/'] <:+: body ++ ['*'])
    (passed : Nat) (rest : List Char) :
    commentEnd? passed (body ++ '*' :: '/' :: rest) = some (passed + body.length + 2) := by
  induction body generalizing passed with
  | nil => rfl
  | cons c body ih =>
    rw [List.cons_append, List.infix_cons_iff, not_or] at h
    have hne : ∀ tail, c :: (body ++ '*' :: '/' :: rest) ≠ '*' :: '/' :: tail := by
      rintro tail heq
      obtain ⟨rfl, ht⟩ := List.cons.inj heq
      cases body with
      | nil => simp at ht
      | cons d body =>
        obtain ⟨rfl, -⟩ := List.cons.inj ht
        exact h.1 ⟨body ++ ['*'], rfl⟩
    rw [List.cons_append, commentEnd?, ih h.2]
    · simp only [List.length_cons, Option.some.injEq]
      omega
    · exact fun tail hc ht => hne tail (by rw [hc, ht])

theorem exists_comment {passed n : Nat} {text : List Char} (h : commentEnd? passed text = some n) :
    ∃ body rest, text = body ++ '*' :: '/' :: rest ∧ ¬ ['*', '/'] <:+: body ++ ['*'] := by
  fun_induction commentEnd? passed text with
  | case1 => simp at h
  | case2 passed rest => exact ⟨[], rest, rfl, by decide⟩
  | case3 passed c text hne ih =>
    obtain ⟨body, rest, rfl, hb⟩ := ih h
    refine ⟨c :: body, rest, rfl, ?_⟩
    rw [List.cons_append, List.infix_cons_iff, not_or]
    refine ⟨?_, hb⟩
    rintro ⟨tail, ht⟩
    obtain ⟨rfl, ht⟩ : '*' = c ∧ '/' :: tail = body ++ ['*'] := by simpa using ht
    cases body with
    | nil => simp at ht
    | cons d body =>
      obtain ⟨rfl, -⟩ : '/' = d ∧ tail = body ++ ['*'] := by simpa using ht
      exact hne _ rfl rfl

theorem startsComment_cases {text : List Char} (h : startsComment text = true) :
    (∃ opening tail, text = opening ++ tail ∧ (opening = ['#'] ∨ opening = ['/', '/'])) ∨
      ∃ tail, text = '/' :: '*' :: tail := by
  unfold startsComment at h
  split at h
  · next tail => exact .inl ⟨['#'], tail, rfl, .inl rfl⟩
  · next tail => exact .inl ⟨['/', '/'], tail, rfl, .inr rfl⟩
  · next tail => exact .inr ⟨tail, rfl⟩
  · cases h

theorem comment_of_isLexeme {raw rest : List Char} (h : IsLexeme .comment raw rest) :
    startsComment (raw ++ rest) = true ∧ comment (raw ++ rest) = .ok raw.length := by
  obtain ⟨hsp, hends⟩ := h
  cases hsp with
  | lineComment ho hb =>
    rename_i opening body
    have hend : ∀ c ∈ rest.head?, (!isLineBreak c) = false := by
      rcases hends with ⟨tail, ht⟩ | hends
      · rcases ho with rfl | rfl <;> simp at ht
      · intro c hc
        simp [hends c hc]
    have hall : ∀ c ∈ opening ++ body, (!isLineBreak c) = true := by
      intro c hc
      rcases List.mem_append.1 hc with hc | hc
      · rcases ho with rfl | rfl <;> (simp at hc; subst hc; decide)
      · simp [hb c hc]
    rcases ho with rfl | rfl <;> exact ⟨rfl, congrArg Except.ok (run_append hall hend)⟩
  | blockComment hb =>
    rename_i body
    refine ⟨rfl, ?_⟩
    have := commentEnd?_of_notMem hb 2 rest
    simp only [comment, List.cons_append, List.append_assoc, List.nil_append, this,
      List.length_cons, List.length_append, List.length_nil, Except.ok.injEq]
    omega

theorem isLexeme_of_comment {text : List Char} {n : Nat} (hs : startsComment text = true)
    (h : comment text = .ok n) :
    ∃ raw rest, text = raw ++ rest ∧ n = raw.length ∧ IsLexeme .comment raw rest := by
  rcases startsComment_cases hs with ⟨opening, tail, rfl, ho⟩ | ⟨tail, rfl⟩
  · obtain ⟨body, rest, rfl, hb, hend⟩ := exists_run (!isLineBreak ·) tail
    have hl : IsLexeme .comment (opening ++ body) rest :=
      ⟨.lineComment ho (by simpa using hb), .inr (by simpa using hend)⟩
    refine ⟨opening ++ body, rest, by simp, ?_, hl⟩
    rw [← List.append_assoc, (comment_of_isLexeme hl).2] at h
    exact (Except.ok.inj h).symm
  · rw [comment] at h
    cases hl : commentEnd? 2 tail with
    | none => simp [hl] at h
    | some length =>
      rw [hl] at h
      obtain ⟨body, rest, rfl, hb⟩ := exists_comment hl
      have hx : IsLexeme .comment ('/' :: '*' :: (body ++ ['*', '/'])) rest :=
        ⟨.blockComment hb, .inl ⟨_, rfl⟩⟩
      refine ⟨_, rest, by simp, ?_, hx⟩
      rw [commentEnd?_of_notMem hb 2] at hl
      cases hl
      cases h
      simp only [List.length_cons, List.length_append, List.length_nil]
      omega

/-! ## Lexemes that may stand anywhere -/

theorem first_blank (blank : Blank) (rest : List Char) :
    first (blank.char :: rest) = .ok (.blank blank, 1) := by
  simp [first, Blank.ofChar?_eq_some_iff.2 rfl]

theorem blank_eq_none {c : Char} (h : ∀ blank : Blank, blank.char ≠ c) : Blank.ofChar? c = none := by
  rw [Option.eq_none_iff_forall_ne_some]
  exact fun blank hb => h blank (Blank.ofChar?_eq_some_iff.1 hb)

theorem mark_eq_none {c : Char} (h : ∀ mark : Punct, mark.char ≠ c) : Punct.ofChar? c = none := by
  rw [Option.eq_none_iff_forall_ne_some]
  exact fun mark hb => h mark (Punct.ofChar?_eq_some_iff.1 hb)

theorem startsComment_eq_false {c : Char} {text : List Char} (h : c ≠ '#') (h' : c ≠ '/') :
    startsComment (c :: text) = false := by
  rw [Bool.eq_false_iff]
  intro hs
  rcases startsComment_cases hs with ⟨opening, tail, ht, rfl | rfl⟩ | ⟨tail, ht⟩
  · exact h (List.cons.inj ht).1
  · exact h' (List.cons.inj ht).1
  · exact h' (List.cons.inj ht).1

theorem first_comment {raw rest : List Char} (h : IsLexeme .comment raw rest) :
    first (raw ++ rest) = .ok (.comment, raw.length) := by
  obtain ⟨hs, hc⟩ := comment_of_isLexeme h
  have hb : ∀ blank : Blank, ∀ tail, blank.char :: tail ≠ raw ++ rest := by
    rintro blank tail heq
    rw [← heq] at hs
    rw [startsComment_eq_false (by cases blank <;> decide) (by cases blank <;> decide)] at hs
    cases hs
  cases ht : raw ++ rest with
  | nil => simp [ht, startsComment] at hs
  | cons c tail =>
    rw [ht] at hs hc hb
    have := blank_eq_none fun blank heq => hb blank tail (by rw [heq])
    simp [first, this, hs, hc, Except.map]

theorem first_mark {mark : Punct} {rest : List Char} :
    first (mark.char :: rest) = .ok (.punct mark, 1) := by
  have hb := blank_eq_none fun blank => blank_ne_mark blank mark
  have hs : startsComment (mark.char :: rest) = false :=
    startsComment_eq_false (by cases mark <;> decide) (by cases mark <;> decide)
  simp [first, hb, hs, Punct.ofChar?_eq_some_iff.2 rfl]

theorem first_digit {c : Char} {text : List Char} (hc : c.isDigit = true) :
    first (c :: text) = .ok (.number, numberLength (c :: text)) := by
  have hb : Blank.ofChar? c = none := by
    apply blank_eq_none
    rintro blank rfl
    simp at hc
  have hm : Punct.ofChar? c = none := by
    apply mark_eq_none
    rintro mark rfl
    simp at hc
  have hs : startsComment (c :: text) = false := by
    apply startsComment_eq_false <;> (rintro rfl; exact absurd hc (by decide))
  simp [first, hb, hs, hm, hc]

theorem first_word {c : Char} {text : List Char} (hc : startsWord c = true) :
    first (c :: text) = .ok (.ofWord (String.ofList ((c :: text).take (run continuesWord (c :: text)))),
      run continuesWord (c :: text)) := by
  have hb : Blank.ofChar? c = none := by
    apply blank_eq_none
    rintro blank rfl
    simp at hc
  have hm : Punct.ofChar? c = none := by
    apply mark_eq_none
    rintro mark rfl
    simp at hc
  have hd : c.isDigit = false := by
    rw [Bool.eq_false_iff]
    intro hd
    rw [startsWord_of_isDigit hd] at hc
    cases hc
  have hs : startsComment (c :: text) = false := by
    apply startsComment_eq_false <;> (rintro rfl; exact absurd hc (by decide))
  simp [first, hb, hs, hm, hd, hc]

theorem spells_word {c : Char} {text : List Char} (hc : startsWord c = true)
    (ht : ∀ d ∈ text, continuesWord d = true) :
    Spells (.ofWord (String.ofList (c :: text))) (c :: text) := by
  unfold Kind.ofWord
  split
  · next word hw =>
    have := Keyword.ofText?_eq_some_iff.1 hw
    have h := Spells.keyword word
    rwa [this, String.toList_ofList] at h
  · next hn => exact .ident hc ht hn

/-- A reserved word is a word. -/
theorem exists_keyword (word : Keyword) :
    ∃ c text, word.text.toList = c :: text ∧ startsWord c = true ∧
      (∀ d ∈ text, continuesWord d = true) ∧ Kind.ofWord (String.ofList (c :: text)) = .keyword word := by
  have h : ∃ c text, word.text.toList = c :: text ∧ startsWord c = true ∧
      ∀ d ∈ text, continuesWord d = true := by
    cases word <;> exact ⟨_, _, rfl, by decide, List.all_eq_true.1 (by decide)⟩
  obtain ⟨c, text, ht, hc, hall⟩ := h
  refine ⟨c, text, ht, hc, hall, ?_⟩
  rw [← ht, String.ofList_toList, Kind.ofWord, Keyword.ofText?_eq_some_iff.2 rfl]

/-- Of what may stand anywhere, `first` finds the kind and the length. -/
theorem first_of_isLexeme {kind : Kind} {raw rest : List Char} (h : IsLexeme kind raw rest)
    (hp : Plain kind raw) : first (raw ++ rest) = .ok (kind, raw.length) := by
  have hword : ∀ c text, startsWord c = true → (∀ d ∈ text, continuesWord d = true) →
      (∀ d ∈ rest.head?, continuesWord d = false) →
      first (c :: text ++ rest) = .ok (.ofWord (String.ofList (c :: text)), (c :: text).length) := by
    intro c text hc ht hend
    have hall : ∀ d ∈ c :: text, continuesWord d = true :=
      List.forall_mem_cons.2 ⟨continuesWord_of_startsWord hc, ht⟩
    rw [List.cons_append, first_word hc, ← List.cons_append, run_append hall hend,
      List.take_left]
  have hnumber : ∀ c tail, raw = c :: tail → c.isDigit = true → kind = .number →
      first (raw ++ rest) = .ok (kind, raw.length) := by
    rintro c tail rfl hc rfl
    rw [List.cons_append, first_digit hc, ← List.cons_append,
      numberLength_of_isLexeme h (hp.2 rfl)]
  obtain ⟨hsp, hend⟩ := h
  cases hsp with
  | endOfInput =>
    obtain rfl : rest = [] := hend
    rfl
  | blank blank => exact first_blank blank rest
  | punct mark => exact first_mark
  | lineComment ho hb => exact first_comment ⟨.lineComment ho hb, hend⟩
  | blockComment hb => exact first_comment ⟨.blockComment hb, hend⟩
  | keyword word =>
    obtain ⟨c, text, ht, hc, hall, hk⟩ := exists_keyword word
    rw [ht, hword c text hc hall hend, hk]
  | ident hc ht hn =>
    rw [hword _ _ hc ht hend, Kind.ofWord, hn]
  | integer hs hw =>
    obtain ⟨c, tail, rfl, hc⟩ := head_isDigit hw
    rcases hs with rfl | rfl
    · exact hnumber c tail rfl hc rfl
    · simp [Plain] at hp
  | decimal hs hw hf =>
    obtain ⟨c, tail, rfl, hc⟩ := head_isDigit hw
    rcases hs with rfl | rfl
    · exact hnumber c _ rfl hc rfl
    · simp [Plain] at hp
  | string hq hb => exact absurd rfl hp.1

/-- What `first` finds is a lexeme. -/
theorem isLexeme_of_first {text : List Char} {kind : Kind} {n : Nat}
    (h : first text = .ok (kind, n)) :
    ∃ raw rest, text = raw ++ rest ∧ n = raw.length ∧ IsLexeme kind raw rest ∧ Plain kind raw := by
  cases text with
  | nil =>
    cases h
    exact ⟨[], [], rfl, rfl, ⟨.endOfInput, rfl⟩, by simp [Plain]⟩
  | cons c text =>
    cases hb : Blank.ofChar? c with
    | some blank =>
      obtain rfl := Blank.ofChar?_eq_some_iff.1 hb
      cases (first_blank blank text).symm.trans h
      exact ⟨[blank.char], text, rfl, rfl, ⟨.blank blank, trivial⟩, by simp [Plain]⟩
    | none =>
      by_cases hs : startsComment (c :: text) = true
      · simp only [first, hb, hs, ↓reduceIte] at h
        cases hc : comment (c :: text) with
        | error fault => simp [hc, Except.map] at h
        | ok length =>
          rw [hc] at h
          cases h
          obtain ⟨raw, rest, ht, hn, hl⟩ := isLexeme_of_comment hs hc
          exact ⟨raw, rest, ht, hn, hl, by simp [Plain]⟩
      · cases hm : Punct.ofChar? c with
        | some mark =>
          obtain rfl := Punct.ofChar?_eq_some_iff.1 hm
          cases first_mark.symm.trans h
          exact ⟨[mark.char], text, rfl, rfl, ⟨.punct mark, trivial⟩, by simp [Plain]⟩
        | none =>
          by_cases hd : c.isDigit = true
          · obtain ⟨raw, rest, ht, hsp, hhead, hend⟩ := exists_number hd text
            have hne : raw.head? ≠ some '-' := by
              rw [hhead]
              rintro ⟨⟩
              exact absurd hd (by decide)
            rw [first_digit hd, ht, numberLength_of_isLexeme ⟨hsp, hend⟩ hne] at h
            cases h
            exact ⟨raw, rest, ht, rfl, ⟨hsp, hend⟩, by simp, fun _ => hne⟩
          · by_cases hw : startsWord c = true
            · obtain ⟨front, rest, ht, hall, hend⟩ := exists_run continuesWord text
              subst ht
              have hall' : ∀ d ∈ c :: front, continuesWord d = true :=
                List.forall_mem_cons.2 ⟨continuesWord_of_startsWord hw, hall⟩
              rw [first_word hw, ← List.cons_append, run_append hall' hend, List.take_left] at h
              cases h
              refine ⟨c :: front, rest, rfl, rfl, ⟨spells_word hw hall, ?_⟩, ?_⟩
              · unfold Kind.ofWord
                split <;> exact hend
              · unfold Kind.ofWord Plain
                split <;> simp
            · simp [first, hb, hs, hm, hd, hw] at h

/-! ## Strings and signed numbers -/

theorem string_of_isLexeme {raw rest : List Char} (h : IsLexeme .string raw rest) :
    ∃ quote body, raw ++ rest = quote :: body ∧ (quote = '"' ∨ quote = '\'') ∧
      string quote body = (raw.length, true) := by
  obtain ⟨hsp, -⟩ := h
  cases hsp with
  | string hq hb =>
    rename_i quote body
    refine ⟨quote, body ++ quote :: rest, by simp, hq, ?_⟩
    have hall : ∀ c ∈ body, (c != quote && !isLineBreak c) = true := by
      intro c hc
      simp [hb c hc]
    have hend : ∀ c ∈ (quote :: rest).head?, (c != quote && !isLineBreak c) = false := by
      rintro c ⟨⟩
      simp
    unfold string
    simp only [run_append hall hend]
    simp

theorem isLexeme_of_string {quote : Char} {body : List Char} {n : Nat}
    (hq : quote = '"' ∨ quote = '\'') (h : string quote body = (n, true)) :
    ∃ raw rest, quote :: body = raw ++ rest ∧ n = raw.length ∧ IsLexeme .string raw rest := by
  obtain ⟨front, rest, rfl, hall, hend⟩ :=
    exists_run (fun c => c != quote && !isLineBreak c) body
  unfold string at h
  simp only [run_append hall hend, Prod.mk.injEq] at h
  obtain ⟨rfl, hclose⟩ := h
  obtain ⟨tail, rfl⟩ : ∃ tail, rest = quote :: tail := by
    cases rest with
    | nil => simp at hclose
    | cons c tail => exact ⟨tail, by simpa using hclose⟩
  refine ⟨quote :: (front ++ [quote]), tail, by simp, by simp, .string hq ?_, trivial⟩
  simpa using hall

/-- A number begins with a digit, or with a minus sign before a number that does. -/
theorem spells_number_cases {raw : List Char} (h : Spells .number raw) :
    (∃ c tail, raw = c :: tail ∧ c.isDigit = true) ∨
      ∃ c tail, raw = '-' :: c :: tail ∧ c.isDigit = true ∧ Spells .number (c :: tail) := by
  cases h with
  | integer hs hw =>
    have hu := Spells.integer (.inl rfl) hw
    obtain ⟨c, tail, rfl, hc⟩ := head_isDigit hw
    rcases hs with rfl | rfl
    · exact .inl ⟨c, tail, rfl, hc⟩
    · exact .inr ⟨c, tail, rfl, hc, hu⟩
  | decimal hs hw hf =>
    have hu := Spells.decimal (.inl rfl) hw hf
    obtain ⟨c, tail, rfl, hc⟩ := head_isDigit hw
    rcases hs with rfl | rfl
    · exact .inl ⟨c, _, rfl, hc⟩
    · exact .inr ⟨c, _, rfl, hc, hu⟩

theorem signed?_of_isLexeme {raw rest : List Char} (h : IsLexeme .number raw rest)
    (hs : raw.head? = some '-') : signed? (raw ++ rest) = some raw.length := by
  obtain ⟨hsp, hend, hdot⟩ := h
  rcases spells_number_cases hsp with ⟨c, tail, rfl, hc⟩ | ⟨c, tail, rfl, hc, hu⟩
  · obtain rfl : c = '-' := by simpa using hs
    exact absurd hc (by decide)
  · have hne : (c :: tail).head? ≠ some '-' := by
      rintro ⟨⟩
      exact absurd hc (by decide)
    have hlex : IsLexeme .number (c :: tail) rest := ⟨hu, hend, hdot.imp_left (by simp)⟩
    have := numberLength_of_isLexeme hlex hne
    rw [List.cons_append] at this
    simp [signed?, hc, this, Nat.add_comm]

theorem isLexeme_of_signed? {text : List Char} {n : Nat} (h : signed? text = some n) :
    ∃ raw rest, text = raw ++ rest ∧ n = raw.length ∧ IsLexeme .number raw rest ∧
      raw.head? = some '-' := by
  unfold signed? at h
  split at h
  · next c text =>
    split at h
    · next hc =>
      obtain ⟨raw, rest, ht, hsp, hhead, hend⟩ := exists_number hc text
      have hne : raw.head? ≠ some '-' := by
        rw [hhead]
        rintro ⟨⟩
        exact absurd hc (by decide)
      rw [ht, numberLength_of_isLexeme ⟨hsp, hend⟩ hne] at h
      have hsp' : Spells .number ('-' :: raw) := by
        cases hsp with
        | integer hs hw =>
          rcases hs with rfl | rfl
          · exact .integer (.inr rfl) hw
          · simp at hne
        | decimal hs hw hf =>
          rcases hs with rfl | rfl
          · exact .decimal (.inr rfl) hw hf
          · simp at hne
      refine ⟨'-' :: raw, rest, by rw [ht]; rfl, ?_, ⟨hsp', hend.1, ?_⟩, rfl⟩
      · cases h
        simp [Nat.add_comm]
      · exact hend.2.imp_left (List.mem_cons_of_mem _)
    · cases h
  · cases h

end ThriftSyntax.Lexeme
