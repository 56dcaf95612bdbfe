import Mathlib.Data.List.Infix
import ThriftSyntax.Proofs.Reader.Position
import ThriftSyntax.Proofs.Success

/-!
# Two runs side by side

A `Coupling` says which errors are alike. `S.Couples P p q Q` says that the runs of `p` and `q` from any
two readers related by `P` come to the same: both succeed and are related by `Q`, or both fail with
errors that are alike. There is one rule for each way of composing actions.

Nothing is said once the first run has gone beyond what the coupling is about, nor where it fails for a
reason that is exempt. A reader that is gone stays so, since reading only goes onward.
-/

namespace ThriftSyntax

variable {α β : Type}

/-- The reader at the end of a run. -/
def Parse.Result.final : Parse.Result α → Reader
  | .ok _ after | .error _ after => after

/-- The error, where the run has failed. -/
def Parse.Result.error? : Parse.Result α → Option Error
  | .ok _ _ => none
  | .error error _ => some error

theorem Parse.Result.eq_error {result : Parse.Result α} {error : Error}
    (h : result.error? = some error) : result = .error error result.final := by
  cases result with
  | ok a after => cases h
  | error e after =>
    cases h
    rfl

/-- Tokens have been added to the chain, and text has been read, if anything. -/
structure Reader.Onward (reader after : Reader) : Prop where
  links : reader.chain.links <+: after.chain.links
  rest : after.cursor.rest <:+ reader.cursor.rest

namespace Reader.Onward

variable {reader between after : Reader}

theorem refl (reader : Reader) : reader.Onward reader := ⟨List.prefix_refl _, List.suffix_refl _⟩

theorem trans (h : reader.Onward between) (h' : between.Onward after) : reader.Onward after :=
  ⟨h.links.trans h'.links, h'.rest.trans h.rest⟩

theorem of_round (h : reader.round.Onward after) : reader.Onward after := ⟨h.links, h.rest⟩

end Reader.Onward

namespace Parse

open Result

variable {p : Parse α} {f : α → Parse β}

/-- The action only ever leads onward. -/
def Onward (p : Parse α) : Prop := ∀ reader : Reader, reader.Onward (final (p reader))

theorem onward_pure (a : α) : Onward (pure a) := fun reader => .refl reader

theorem onward_throw (error : Error) : Onward (throw error : Parse α) := fun reader => .refl reader

theorem onward_get : Onward (get : Parse Reader) := fun reader => .refl reader

/-- An action that leaves the reader as it is. -/
theorem onward_of_still (h : ∀ reader, final (p reader) = reader) : Onward p := by
  intro reader
  rw [h]
  exact .refl reader

theorem Onward.bind (hp : Onward p) (hf : ∀ a, Onward (f a)) : Onward (p >>= f) := by
  intro reader
  have hfirst := hp reader
  show reader.Onward (final (EStateM.bind p f reader))
  unfold EStateM.bind
  cases hres : p reader with
  | error error after => rwa [hres] at hfirst
  | ok a between =>
    rw [hres] at hfirst
    exact hfirst.trans (hf a between)

theorem Onward.below {limit : Nat} (hp : Onward p) : Onward (below limit p) := by
  intro reader
  unfold Parse.below
  split
  · exact hp reader
  · exact .refl reader

theorem Onward.repeatUntil {step : Parse (α ⊕ β)} (h : Onward step) : Onward (repeatUntil step) := by
  intro reader
  induction hn : reader.unread using Nat.strongRecOn generalizing reader with
  | ind n ih =>
    have hstep : reader.Onward (final (step reader.round)) := (h reader.round).of_round
    rw [repeatUntil_apply]
    cases hres : step reader.round with
    | error error after => rwa [hres] at hstep
    | ok result between =>
      rw [hres] at hstep
      cases result with
      | inr b => exact hstep
      | inl a =>
        refine hstep.trans ?_
        show between.Onward (final (Parse.below reader.unread _ between))
        unfold Parse.below
        split
        · rename_i hlt
          have hrest := ih between.unread (hn ▸ hlt) between rfl
          show between.Onward (final (EStateM.bind (Parse.repeatUntil step) _ between))
          unfold EStateM.bind
          cases hrun : Parse.repeatUntil step between with
          | error error after => rwa [hrun] at hrest
          | ok result after => rwa [hrun] at hrest
        · exact .refl between

end Parse

/-- Which errors are alike, and what holds of the reader where the first run has `failed`. Nothing is said
when the first run is `gone` too far, and when it fails for a reason that is `exempt`. -/
structure Coupling where
  errors : Error → Error → Prop
  failed : Reader → Prop
  gone : Reader → Prop
  exempt : Error → Reader → Prop
  gone_onward : ∀ {reader after : Reader}, reader.Onward after → gone reader → gone after
  exempt_stalled : ∀ reader, exempt .stalled reader

namespace Coupling

open Parse Result

/-- What two runs have come to is the same, as far as anything is said about it. -/
inductive Outcome (S : Coupling) (Q : α → α → Reader → Reader → Prop) :
    Result α → Result α → Prop where
  | ok {a b : α} {r s : Reader} (h : Q a b r s) : Outcome S Q (.ok a r) (.ok b s)
  | error {e f : Error} {r s : Reader} (h : S.errors e f) (hr : S.failed r) :
      Outcome S Q (.error e r) (.error f s)
  | gone {x y : Result α} (h : S.gone (final x)) : Outcome S Q x y
  | exempt {e : Error} {r : Reader} {y : Result α} (h : S.exempt e r) : Outcome S Q (.error e r) y
  | stalled {x : Result α} {s : Reader} : Outcome S Q x (.error .stalled s)

/-- The runs of `p` and `q` from readers related by `P` come to the same. -/
structure Couples (S : Coupling) (P : Reader → Reader → Prop) (p q : Parse α)
    (Q : α → α → Reader → Reader → Prop) : Prop where
  onward : Onward p
  onward' : Onward q
  outcome : ∀ {r s : Reader}, P r s → S.Outcome Q (p r) (q s)

variable {S : Coupling} {P P' : Reader → Reader → Prop} {p q : Parse α} {f g : α → Parse β}
variable {Q Q' : α → α → Reader → Reader → Prop} {R : β → β → Reader → Reader → Prop}

theorem Outcome.mono {x y : Result α} (h : S.Outcome Q x y)
    (hQ : ∀ {a b r s}, Q a b r s → Q' a b r s) : S.Outcome Q' x y := by
  cases h with
  | ok h => exact .ok (hQ h)
  | error h hr => exact .error h hr
  | gone h => exact .gone h
  | exempt h => exact .exempt h
  | stalled => exact .stalled

theorem Outcome.bind {r s : Reader} (h : S.Outcome Q (p r) (q s)) (hp : ∀ a, Onward (f a))
    (hf : ∀ {a b r s}, Q a b r s → S.Outcome R (f a r) (g b s)) :
    S.Outcome R ((p >>= f) r) ((q >>= g) s) := by
  show S.Outcome R (EStateM.bind p f r) (EStateM.bind q g s)
  unfold EStateM.bind
  generalize p r = x at h
  generalize q s = y at h
  cases h with
  | ok h => exact hf h
  | error h hr => exact .error h hr
  | gone h =>
    cases x with
    | ok a after => exact .gone (S.gone_onward (hp a after) h)
    | error error after => exact .gone h
  | exempt h => exact .exempt h
  | stalled => exact .stalled

/-- Where neither run stalls, both succeed. -/
theorem Outcome.of_or {x y : Result α} {a b : α} {r r' s s' : Reader}
    (hx : x = .ok a r ∨ x = .error .stalled r') (hy : y = .ok b s ∨ y = .error .stalled s')
    (h : Q a b r s) : S.Outcome Q x y := by
  obtain rfl | rfl := hx
  · obtain rfl | rfl := hy
    · exact .ok h
    · exact .stalled
  · exact .exempt (S.exempt_stalled r')

namespace Couples

theorem mono (h : S.Couples P p q Q) (hP : ∀ {r s}, P' r s → P r s)
    (hQ : ∀ {a b r s}, Q a b r s → Q' a b r s) : S.Couples P' p q Q' :=
  ⟨h.onward, h.onward', fun hr => (h.outcome (hP hr)).mono hQ⟩

theorem weaken (h : S.Couples P p q Q) (hQ : ∀ {a b r s}, Q a b r s → Q' a b r s) :
    S.Couples P p q Q' := h.mono (fun hr => hr) hQ

theorem strengthen (h : S.Couples P p q Q) (hP : ∀ {r s}, P' r s → P r s) :
    S.Couples P' p q Q := h.mono hP fun hq => hq

/-- Where no readers are related there is nothing to show. -/
theorem vacuous (hp : Onward p) (hq : Onward q) (hP : ∀ {r s}, ¬ P r s) : S.Couples P p q Q :=
  ⟨hp, hq, fun hr => absurd hr hP⟩

theorem pure {a b : α} (h : ∀ {r s}, P r s → Q a b r s) : S.Couples P (pure a) (pure b) Q :=
  ⟨onward_pure a, onward_pure b, fun hr => .ok (h hr)⟩

theorem throw {e e' : Error} (h : ∀ {r s}, P r s → S.errors e e') (hfailed : ∀ {r s}, P r s → S.failed r) :
    S.Couples P (throw e) (throw e') Q :=
  ⟨onward_throw e, onward_throw e', fun hr => .error (h hr) (hfailed hr)⟩

theorem get : S.Couples P get get fun a b r s => P r s ∧ a = r ∧ b = s :=
  ⟨onward_get, onward_get, fun hr => .ok ⟨hr, rfl, rfl⟩⟩

theorem bind (hp : S.Couples P p q Q) (hf : ∀ a b, S.Couples (Q a b) (f a) (g b) R) :
    S.Couples P (p >>= f) (q >>= g) R where
  onward := hp.onward.bind fun a => (hf a a).onward
  onward' := hp.onward'.bind fun b => (hf b b).onward'
  outcome hr := (hp.outcome hr).bind (fun a => (hf a a).onward) fun hq => (hf _ _).outcome hq

theorem map {h : α → β} (hp : S.Couples P p q fun a b => R (h a) (h b)) :
    S.Couples P (h <$> p) (h <$> q) R := by
  rw [map_eq_pure_bind, map_eq_pure_bind]
  exact hp.bind fun a b => .pure fun hq => hq

/-- What both runs choose by is the same. -/
theorem cases {κ : Type} {a b : κ} {F G : κ → Parse α} (hab : ∀ {r s}, P r s → a = b)
    (h : ∀ k, S.Couples (fun r s => P r s ∧ a = k ∧ b = k) (F k) (G k) Q) :
    ∀ x, a = x → ∀ y, b = y → S.Couples P (F x) (G y) Q := by
  rintro _ rfl _ rfl
  refine ⟨(h a).onward, (h b).onward', fun hr => ?_⟩
  obtain rfl := hab hr
  exact (h a).outcome ⟨hr, rfl, rfl⟩

theorem ite {c d : Prop} [Decidable c] [Decidable d] {p' q' : Parse α}
    (hcd : ∀ {r s}, P r s → (c ↔ d)) (ht : S.Couples (fun r s => P r s ∧ c) p q Q)
    (he : S.Couples (fun r s => P r s ∧ ¬ c) p' q' Q) :
    S.Couples P (if c then p else p') (if d then q else q') Q where
  onward := by split <;> [exact ht.onward; exact he.onward]
  onward' := by split <;> [exact ht.onward'; exact he.onward']
  outcome hr := by
    by_cases hc : c
    · rw [if_pos hc, if_pos ((hcd hr).1 hc)]
      exact ht.outcome ⟨hr, hc⟩
    · rw [if_neg hc, if_neg fun hd => hc ((hcd hr).2 hd)]
      exact he.outcome ⟨hr, hc⟩

/-- Both runs find something, or neither does. -/
theorem bindOption {p q : Parse (Option α)} {f g : Option α → Parse β}
    {Q : Option α → Option α → Reader → Reader → Prop} (hp : S.Couples P p q Q)
    (hQ : ∀ {a b r s}, Q a b r s → a.isSome = b.isSome)
    (hnone : S.Couples (Q none none) (f none) (g none) R)
    (hsome : ∀ a b, S.Couples (Q (some a) (some b)) (f (some a)) (g (some b)) R) :
    S.Couples P (p >>= f) (q >>= g) R := by
  refine hp.bind fun a b => ?_
  cases a with
  | none =>
    cases b with
    | none => exact hnone
    | some b => exact .vacuous hnone.onward (hsome b b).onward' fun hq => by cases hQ hq
  | some a =>
    cases b with
    | none => exact .vacuous (hsome a a).onward hnone.onward' fun hq => by cases hQ hq
    | some b => exact hsome a b

/-- What does not depend on the readers stays true. -/
theorem keep {F : Prop} (h : S.Couples P p q Q) :
    S.Couples (fun r s => P r s ∧ F) p q fun a b r s => Q a b r s ∧ F :=
  ⟨h.onward, h.onward', fun hr => (h.outcome hr.1).mono fun hq => ⟨hq, hr.2⟩⟩

/-- Tokens that are in the chains stay there. -/
theorem remember (h : S.Couples P p q Q) {l m : Link} :
    S.Couples (fun r s => P r s ∧ l ∈ r.chain.links ∧ m ∈ s.chain.links) p q
      fun a b r s => Q a b r s ∧ l ∈ r.chain.links ∧ m ∈ s.chain.links where
  onward := h.onward
  onward' := h.onward'
  outcome := by
    rintro r s ⟨hr, hl, hm⟩
    have hrun := h.outcome hr
    have hp := h.onward r
    have hq := h.onward' s
    generalize p r = x at hrun hp
    generalize q s = y at hrun hq
    cases hrun with
    | ok hab => exact .ok ⟨hab, hp.links.subset hl, hq.links.subset hm⟩
    | error h hr => exact .error h hr
    | gone h => exact .gone h
    | exempt h => exact .exempt h
    | stalled => exact .stalled

/-! ## Recursions -/

/-- Whatever limits two runs of a recursion have: where either is reached, nothing is said. -/
theorem below {m n : Nat} (h : ∀ {r s : Reader}, P r s → r.unread < m → s.unread < n →
      S.Outcome Q (p r) (q s))
    (hp : ∀ r : Reader, r.unread < m → r.Onward (final (p r)))
    (hq : ∀ s : Reader, s.unread < n → s.Onward (final (q s))) :
    S.Couples P (Parse.below m p) (Parse.below n q) Q where
  onward r := by
    unfold Parse.below
    split
    · exact hp r ‹_›
    · exact .refl r
  onward' s := by
    unfold Parse.below
    split
    · exact hq s ‹_›
    · exact .refl s
  outcome {r s} hr := by
    unfold Parse.below
    by_cases hm : r.unread < m
    · by_cases hn : s.unread < n
      · rw [if_pos hm, if_pos hn]
        exact h hr hm hn
      · rw [if_neg hn]
        exact .stalled
    · rw [if_neg hm]
      exact .exempt (S.exempt_stalled r)

/-- A recursion is coupled with itself if its body is whenever what runs within it is. -/
theorem nested {body : Parse α → Parse α} (hround : ∀ {r s : Reader}, P r s → P r.round s.round)
    (hbody : ∀ p q : Parse α, S.Couples P p q Q → S.Couples P (body p) (body q) Q) :
    S.Couples P (Parse.nested body) (Parse.nested body) Q := by
  -- The two limits fall separately, so the induction is on their sum.
  have hbelow : ∀ k m n : Nat, m + n = k →
      S.Couples P (Parse.below m (Parse.nested body)) (Parse.below n (Parse.nested body)) Q := by
    intro k
    induction k using Nat.strongRecOn with
    | ind k ih =>
      intro m n hk
      refine .below (fun {r s} hr hm hn => ?_) (fun r hm => ?_) fun s hn => ?_
      · rw [nested_apply, nested_apply]
        exact (hbody _ _ (ih (r.unread + s.unread) (by omega) _ _ rfl)).outcome (hround hr)
      · rw [nested_apply]
        exact ((hbody _ _ (ih (r.unread + 0) (by omega) _ _ rfl)).onward r.round).of_round
      · rw [nested_apply]
        exact ((hbody _ _ (ih (0 + s.unread) (by omega) _ _ rfl)).onward' s.round).of_round
  refine ⟨fun r => ?_, fun s => ?_, fun {r s} hr => ?_⟩
  · have h := (hbelow _ (r.unread + 1) 0 rfl).onward r
    rwa [Parse.below, if_pos (Nat.lt_succ_self _)] at h
  · have h := (hbelow _ 0 (s.unread + 1) rfl).onward' s
    rwa [Parse.below, if_pos (Nat.lt_succ_self _)] at h
  · have h := (hbelow _ (r.unread + 1) (s.unread + 1) rfl).outcome hr
    rwa [Parse.below, if_pos (Nat.lt_succ_self _), Parse.below, if_pos (Nat.lt_succ_self _)] at h

/-- What holds of a round of two repetitions that have found `xs` and `ys` so far: both go on, or both
end. -/
inductive Round (P : List α → List α → Reader → Reader → Prop)
    (Q : List α → List α → β → β → Reader → Reader → Prop) (xs ys : List α) :
    α ⊕ β → α ⊕ β → Reader → Reader → Prop
  | item {a b : α} {r s : Reader} (h : P (xs ++ [a]) (ys ++ [b]) r s) :
      Round P Q xs ys (.inl a) (.inl b) r s
  | last {a b : β} {r s : Reader} (h : Q xs ys a b r s) : Round P Q xs ys (.inr a) (.inr b) r s

theorem repeatUntil {step step' : Parse (α ⊕ β)} {P : List α → List α → Reader → Reader → Prop}
    {Q : List α → List α → β → β → Reader → Reader → Prop}
    (hround : ∀ {xs ys} {r s : Reader}, P xs ys r s → P xs ys r.round s.round)
    (hstep : ∀ xs ys, S.Couples (P xs ys) step step' (Round P Q xs ys)) :
    S.Couples (P [] []) (Parse.repeatUntil step) (Parse.repeatUntil step')
      fun x y => Q x.1 y.1 x.2 y.2 where
  onward := (hstep [] []).onward.repeatUntil
  onward' := (hstep [] []).onward'.repeatUntil
  outcome := by
    -- Both repetitions have found something before: the results come behind it.
    suffices h : ∀ (n : Nat) {xs ys : List α} {r s : Reader}, r.unread = n → P xs ys r s →
        S.Outcome (fun x y => Q (xs ++ x.1) (ys ++ y.1) x.2 y.2) (Parse.repeatUntil step r)
          (Parse.repeatUntil step' s) from fun {r s} hr => h r.unread rfl hr
    intro n
    induction n using Nat.strongRecOn with
    | ind n ih =>
      intro xs ys r s hn hr
      have hrun := (hstep xs ys).outcome (hround hr)
      rw [repeatUntil_apply, repeatUntil_apply]
      generalize step r.round = x at hrun
      generalize step' s.round = y at hrun
      cases hrun with
      | error h hr => exact .error h hr
      | exempt h => exact .exempt h
      | stalled => exact .stalled
      | gone h =>
        cases x with
        | error error after => exact .gone h
        | ok result after =>
          cases result with
          | inr b => exact .gone h
          | inl a =>
            refine .gone (S.gone_onward (Onward.below ?_ after) h)
            exact (hstep [] []).onward.repeatUntil.bind fun _ => onward_pure _
      | @ok _ _ r' s' h =>
        cases h with
        | last h => exact .ok (by simpa using h)
        | item h =>
          unfold Parse.below
          dsimp only
          by_cases hm : r'.unread < r.unread
          · by_cases hn' : s'.unread < s.unread
            · rw [if_pos hm, if_pos hn']
              exact (ih _ (hn ▸ hm) rfl h).bind (fun _ => onward_pure _)
                fun hq => .ok (by simpa using hq)
            · rw [if_neg hn']
              exact .stalled
          · rw [if_neg hm]
            exact .exempt (S.exempt_stalled r')

end Couples

end Coupling

end ThriftSyntax
