import ThriftSyntax.Proofs.Session.Move
import ThriftSyntax.Proofs.Success

/-!
# Runs of actions

`reader.Runs p cost fault Q` says what comes of running `p` from `reader`, whether it succeeds or not:
only moves are made, and the rounds that begin are paid for by the text that is read. `cost` and `fault`
bound what is left to pay, after a success and after a failure; `Q` is what holds of a result. There is
one rule for each way of composing actions. In the course of a longer action, `start.Yields` says the
same of what is left to be run.
-/

namespace ThriftSyntax

/-- The error that a string or a comment is not closed. Only then text is dropped. -/
def Error.IsUnterminated : Error → Prop
  | .lexical .unterminatedComment _ | .lexical .unterminatedString _ => True
  | _ => False

namespace Reader

/-- The rounds that have begun, with ten more set aside for every character that is unread. -/
def account (reader : Reader) : Int := reader.rounds + 10 * reader.unread

/-- Moves lead from `reader` to `after`, and the account has grown by `cost` at most. -/
structure Leads (reader : Reader) (cost : Int) (after : Reader) : Prop where
  moves : Moves reader after
  account_le : after.account ≤ reader.account + cost

/-- `after` is a reader that has read `link` and may put it back. -/
structure Hands (reader : Reader) (cost : Int) (link : Link) (after : Reader) : Prop where
  held : after.held = none
  mem : link ∈ after.chain.links
  leads : reader.Leads cost (after.hold link)

/-- The token with this id was the last one of the chain at `reader`, or has been chained since. -/
structure Since (reader after : Reader) (id : Nat) : Prop where
  le : reader.chain.size ≤ id + 1
  lt : id < after.chain.size

/-- The action that failed has made moves only, but for the text of an unterminated string or comment,
and its error is about a place in the text. -/
structure Fails (reader : Reader) (cost : Int) (error : Error) (after : Reader) : Prop where
  located : error.location?.isSome = true
  leads : ∃ between, reader.Leads cost between ∧
    (after = between ∨ error.IsUnterminated ∧ ∃ n, after = between.drop n)

/-- What has come of an action that was begun at `start`. -/
structure Yields {α : Type} (start : Reader) (cost fault : Int) (Q : α → Reader → Prop)
    (result : EStateM.Result Error Reader α) : Prop where
  ok : ∀ a after, result = .ok a after → start.Leads cost after ∧ Q a after
  error : ∀ error after, result = .error error after → start.Fails fault error after

/-- What comes of running `p` from `reader`. -/
abbrev Runs {α : Type} (reader : Reader) (p : Parse α) (cost fault : Int)
    (Q : α → Reader → Prop) : Prop :=
  reader.Yields cost fault Q (p reader)

variable {start reader between after : Reader} {link : Link} {id id' : Nat} {c d e : Int}

/-! ## Leading on -/

theorem Leads.refl (reader : Reader) : reader.Leads 0 reader :=
  ⟨.refl, by omega⟩

theorem Leads.mono (h : reader.Leads c after) (hc : c ≤ d) : reader.Leads d after :=
  ⟨h.moves, by have := h.account_le; omega⟩

theorem Leads.trans (h : reader.Leads c between) (h' : between.Leads d after) :
    reader.Leads (c + d) after where
  moves := h.moves.trans h'.moves
  account_le := by
    have := h.account_le
    have := h'.account_le
    omega

theorem Leads.sound (h : reader.Leads c after) (hs : reader.Sound) : after.Sound :=
  h.moves.sound hs

theorem Leads.steady (h : reader.Leads c after) (hs : reader.Steady) : after.Steady :=
  h.moves.steady hs

theorem Leads.size_le (h : reader.Leads c after) : reader.chain.size ≤ after.chain.size :=
  h.moves.size_le

theorem Leads.unread_le (h : reader.Leads c after) (hc : c < 10) : after.unread ≤ reader.unread := by
  have hrounds := h.moves.rounds_le
  have := h.account_le
  unfold account at this
  omega

/-- Where the account has shrunk, text was read. -/
theorem Leads.unread_lt (h : reader.Leads c after) (hc : c < 0) : after.unread < reader.unread := by
  have hrounds := h.moves.rounds_le
  have := h.account_le
  unfold account at this
  omega

theorem leads_round (reader : Reader) : reader.Leads 1 reader.round where
  moves := .single (.round reader)
  account_le := by
    simp only [account, unread_round]
    simp only [round]
    omega

theorem release_hold (hh : reader.held = none) : (reader.hold link).release = reader := by
  cases reader
  simp_all [hold, release]

theorem hold_release (hh : reader.held = some link) : reader.release.hold link = reader := by
  cases reader
  simp_all [hold, release]

/-- Reading a token pays for ten rounds for each of its characters. -/
theorem Hands.leads_after (h : reader.Hands c link after) :
    reader.Leads (c - 10 * link.raw.length) after where
  moves := by
    have := h.leads.moves.tail .release
    rwa [release_hold h.held] at this
  account_le := by
    have := h.leads.account_le
    simp only [account, unread, hold, h.held, Option.elim_some, Option.elim_none] at this ⊢
    push_cast at this ⊢
    omega

theorem Leads.hands (h : reader.Leads c between) (h' : between.Hands d link after) :
    reader.Hands (c + d) link after :=
  ⟨h'.held, h'.mem, h.trans h'.leads⟩

theorem Leads.fails {error : Error} (h : reader.Leads c between) (h' : between.Fails d error after) :
    reader.Fails (c + d) error after := by
  obtain ⟨hlocated, last, hlast, hafter⟩ := h'
  exact ⟨hlocated, last, h.trans hlast, hafter⟩

theorem Fails.mono {error : Error} (h : reader.Fails c error after) (hc : c ≤ d) :
    reader.Fails d error after := by
  obtain ⟨hlocated, last, hlast, hafter⟩ := h
  exact ⟨hlocated, last, hlast.mono hc, hafter⟩

/-- A reader that goes on after a failure is steady too. -/
theorem Fails.steady {error : Error} (h : reader.Fails c error after) (hs : reader.Steady) :
    after.Steady := by
  obtain ⟨-, last, hlast, rfl | ⟨-, n, rfl⟩⟩ := h
  · exact hlast.steady hs
  · exact (hlast.steady hs).drop n

theorem Hands.leads_le (h : reader.Hands c link after) : reader.Leads c after :=
  h.leads_after.mono (by omega)

/-- A token with a text pays for ten rounds at least. -/
theorem Hands.leads_lt (h : reader.Hands c link after) (hraw : link.raw.toList ≠ []) :
    reader.Leads (c - 10) after := by
  have := List.length_pos_of_ne_nil hraw
  rw [String.length_toList] at this
  exact h.leads_after.mono (by omega)

/-! ## The order of the tokens -/

theorem Since.mono (h : start.Since between id) (hmoves : Moves between after) :
    start.Since after id :=
  ⟨h.le, Nat.lt_of_lt_of_le h.lt hmoves.size_le⟩

theorem Since.extend (h : reader.Since after id) (hmoves : Moves start reader) :
    start.Since after id :=
  ⟨Nat.le_trans hmoves.size_le h.le, h.lt⟩

/-- A token of the chain does not come after one that is read later. -/
theorem Since.le_of_lt (h : reader.Since after id') (hid : id < reader.chain.size) : id ≤ id' := by
  have := h.le
  omega

/-- The token that may be put back is the last one of the chain. -/
theorem Hands.last (h : start.Hands c link reader) (hs : start.Steady) :
    reader.chain.links.getLast? = some link :=
  (h.leads.steady hs).slot link rfl

theorem Hands.since (h : start.Hands c link reader) (hs : start.Steady) :
    start.Since reader link.id where
  le := by
    rw [TokenChain.id_of_getLast? (h.last hs)]
    exact h.leads.size_le
  lt := id_lt_of_mem h.mem

/-! ## Composing -/

variable {α β : Type} {p : Parse α} {Q Q' : α → Reader → Prop} {R : β → Reader → Prop} {c' e' : Int}

theorem Yields.mono {result : EStateM.Result Error Reader α} (h : start.Yields c e Q result)
    (hc : c ≤ c') (he : e ≤ e') (hQ : ∀ a after, start.Leads c after → Q a after → Q' a after) :
    start.Yields c' e' Q' result where
  ok a after ha := by
    obtain ⟨hleads, hq⟩ := h.ok a after ha
    exact ⟨hleads.mono hc, hQ a after hleads hq⟩
  error error after ha := (h.error error after ha).mono he

/-- What is paid for does not stall. -/
theorem Yields.ne_stalled {result : EStateM.Result Error Reader α} (h : start.Yields c e Q result)
    (after : Reader) : result ≠ .error .stalled after :=
  fun hresult => nomatch (h.error _ _ hresult).located

/-- What is run later adds to what was run before. -/
theorem Leads.yields (h : start.Leads c reader) {result : EStateM.Result Error Reader α}
    (h' : reader.Yields d e Q result) :
    start.Yields (c + d) (c + e) (fun a after => reader.Leads d after ∧ Q a after) result where
  ok a after ha := by
    obtain ⟨hleads, hq⟩ := h'.ok a after ha
    exact ⟨h.trans hleads, hleads, hq⟩
  error error after ha := h.fails (h'.error error after ha)

theorem Leads.ok {a : α} (h : start.Leads c after) (hq : Q a after) :
    start.Yields c e Q (.ok a after) where
  ok _ _ ha := by
    cases ha
    exact ⟨h, hq⟩
  error _ _ ha := by cases ha

theorem Fails.yields {error : Error} (h : start.Fails e error after) :
    start.Yields c e Q (.error error after) where
  ok _ _ ha := by cases ha
  error _ _ ha := by
    cases ha
    exact h

theorem Leads.pure {a : α} (h : start.Leads c reader) (hc : c ≤ d) (hq : Q a reader) :
    start.Yields d e Q ((pure a : Parse α) reader) :=
  (h.mono hc).ok hq

theorem Leads.throw {error : Error} (h : start.Leads c reader) (hc : c ≤ e)
    (hlocated : error.location?.isSome = true) :
    start.Yields d e Q ((throw error : Parse α) reader) :=
  Fails.yields ⟨hlocated, reader, h.mono hc, .inl rfl⟩

theorem Yields.bind {f : α → Parse β} (h : start.Yields c e Q (p reader)) (he : e ≤ e')
    (hf : ∀ a between, start.Leads c between → Q a between →
      start.Yields c' e' R (f a between)) : start.Yields c' e' R ((p >>= f) reader) where
  ok b after hb := by
    obtain ⟨a, between, ha, hb⟩ := Parse.bind_eq_ok.1 hb
    obtain ⟨hleads, hq⟩ := h.ok a between ha
    exact (hf a between hleads hq).ok b after hb
  error error after hb := by
    obtain ha | ⟨a, between, ha, hb⟩ := Parse.bind_eq_error.1 hb
    · exact (h.error error after ha).mono he
    · obtain ⟨hleads, hq⟩ := h.ok a between ha
      exact (hf a between hleads hq).error error after hb

theorem Leads.bind {f : α → Parse β} (h : start.Leads c reader) (hp : reader.Runs p d e Q)
    (he : c + e ≤ e') (hf : ∀ a between, start.Leads (c + d) between → reader.Leads d between →
      Q a between → start.Yields c' e' R (f a between)) :
    start.Yields c' e' R ((p >>= f) reader) :=
  (h.yields hp).bind he fun a between hl hq => hf a between hl hq.1 hq.2

/-- The last of several actions gives the result. -/
theorem Leads.last (h : start.Leads c reader) (hp : reader.Runs p d e Q) (hc : c + d ≤ c')
    (he : c + e ≤ e') (hQ : ∀ a after, start.Leads (c + d) after → reader.Leads d after → Q a after →
      Q' a after) : start.Yields c' e' Q' (p reader) :=
  (h.yields hp).mono hc he fun a after hl hq => hQ a after hl hq.1 hq.2

theorem Yields.map {f : α → β} (h : start.Yields c e (fun a after => R (f a) after) (p reader)) :
    start.Yields c e R ((f <$> p) reader) where
  ok b after hb := by
    obtain ⟨a, ha, rfl⟩ := Parse.map_eq_ok.1 hb
    exact h.ok a after ha
  error error after hb := h.error error after (Parse.map_eq_error.1 hb)

/-! ## Recursions -/

/-- What holds of a round of a repetition: an item is paid for by its text, and then the repetition
may go on. -/
def Round (inside : Reader) (I : Reader → Prop) (Q : α → Reader → Prop) (R : β → Reader → Prop)
    (result : α ⊕ β) (after : Reader) : Prop :=
  result.elim (fun a => inside.Leads (-1) after ∧ I after ∧ Q a after) fun b => R b after

theorem Round.mono {I : Reader → Prop} {R' : β → Reader → Prop} {result : α ⊕ β}
    (h : Round reader I Q R result after) (hQ : ∀ a, Q a after → Q' a after)
    (hR : ∀ b, R b after → R' b after) : Round reader I Q' R' result after := by
  cases result with
  | inl a => exact ⟨h.1, h.2.1, hQ a h.2.2⟩
  | inr b => exact hR b h

/-- A repetition each of whose items is paid for by its text costs what its end costs. -/
theorem runs_repeatUntil {step : Parse (α ⊕ β)} {I : Reader → Prop} {limit : Nat}
    (hround : ∀ {inside : Reader}, I inside → I inside.round)
    (hQ : ∀ {a between after}, Moves between after → Q a between → Q a after)
    (hstep : ∀ inside : Reader, Moves reader inside → I inside → inside.unread ≤ limit →
      inside.Runs step c e (inside.Round I Q R))
    (hi : I reader) (hlimit : reader.unread ≤ limit) :
    reader.Runs (Parse.repeatUntil step) (c + 1) (e + 1) fun result after =>
      (∀ a ∈ result.1, Q a after) ∧ R result.2 after := by
  induction hn : reader.unread using Nat.strongRecOn generalizing reader with
  | ind n ih =>
    have hfirst := leads_round reader
    have hrun := hstep reader.round hfirst.moves (hround hi) hlimit
    rw [Runs, Parse.repeatUntil_apply]
    cases hres : step reader.round with
    | error error between => exact (hfirst.fails (hrun.error _ _ hres)).mono (by omega) |>.yields
    | ok result between =>
      obtain ⟨hleads, hr⟩ := hrun.ok _ _ hres
      cases result with
      | inr b => exact ((hfirst.trans hleads).mono (by omega)).ok ⟨by simp, hr⟩
      | inl a =>
        obtain ⟨hpaid, hi', hq⟩ := hr
        have hlt : between.unread < reader.unread := hpaid.unread_lt (by decide)
        have hrest := ih _ (hn ▸ hlt) (fun inside hmoves => hstep inside
          ((hfirst.moves.trans hpaid.moves).trans hmoves)) hi' (by omega) rfl
        show reader.Yields _ _ _ (Parse.below reader.unread _ between)
        rw [Parse.below, if_pos hlt]
        refine (hfirst.trans hpaid).bind hrest (by omega) fun result after h hrest hq' => ?_
        exact h.pure (by omega) ⟨List.forall_mem_cons.2 ⟨hQ hrest.moves hq, hq'.1⟩, hq'.2⟩

/-- A recursion is like its body, if this runs itself only where less is left to be read. -/
theorem runs_nested {body : Parse α → Parse α} {Q : Reader → α → Reader → Prop}
    (hround : ∀ {inside : Reader} {a after}, Q inside.round a after → Q inside a after)
    (hbody : ∀ (inside : Reader) (inner : Parse α), inside.Steady →
      (∀ below : Reader, below.Steady → below.unread < inside.unread →
        below.Runs inner c e (Q below)) →
      inside.Runs (body inner) (c - 1) (e - 1) (Q inside))
    (hs : reader.Steady) : reader.Runs (Parse.nested body) c e (Q reader) := by
  induction hn : reader.unread using Nat.strongRecOn generalizing reader with
  | ind n ih =>
    have hfirst := leads_round reader
    have hrun := hbody reader.round (Parse.below reader.unread (Parse.nested body))
      (hfirst.steady hs) fun below hb hlt => by
        have heq : Parse.below reader.unread (Parse.nested body) below =
          Parse.nested body below := if_pos hlt
        rw [Runs, heq]
        exact ih _ (hn ▸ hlt) hb rfl
    rw [Runs, Parse.nested_apply]
    exact (hfirst.yields hrun).mono (by omega) (by omega) fun a after _ hq => hround hq.2

end Reader

end ThriftSyntax
