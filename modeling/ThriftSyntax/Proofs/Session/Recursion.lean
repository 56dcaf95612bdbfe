import ThriftSyntax.Proofs.Session.Value

/-!
# Recursion

Types and constants are read by rules that run themselves. Whatever such a rule is given to run within
itself, it runs it only where less text is left to be read. So it does not matter what would be run
elsewhere, and there are no more levels of recursion than there are characters.
-/

namespace ThriftSyntax

open Reader

variable {α β : Type} {start reader : Reader}

namespace Parse

/-- In the place of `rec`, `inner` is run alike where text was read since `start`. -/
def Agrees (start : Reader) (rec inner : Parse α) : Prop :=
  ∀ below : Reader, Moves start below → below.unread < start.unread → inner below = rec below

/-- `rec` is `body` with `rec` within it, which is run only where text was read before. -/
def Recurses (body : Parse α → Parse α) (rec : Parse α) : Prop :=
  ∀ {reader : Reader} {inner : Parse α}, reader.Steady → Agrees reader rec inner →
    body inner reader.round = rec reader

/-- `body` within itself, `depth` times; what would lie deeper is `deep`. -/
def within (deep : Parse α) (body : Parse α → Parse α) : Nat → Parse α
  | 0 => deep
  | depth + 1 => fun reader => body (within deep body depth) reader.round

/-- A recursion has no more levels than there are characters to be read. -/
theorem Recurses.within_eq {body : Parse α → Parse α} {rec : Parse α} (h : Recurses body rec)
    (deep : Parse α) {depth : Nat} (hs : reader.Steady) (hdepth : reader.unread < depth) :
    within deep body depth reader = rec reader := by
  induction depth generalizing reader with
  | zero => omega
  | succ depth ih =>
    exact h hs fun below hmoves hlt => ih (hmoves.steady hs) (by omega)

/-- A recursion does not depend on what is run where no text was read, if its body does not. -/
theorem recurses_nested {body : Parse α → Parse α}
    (hbody : ∀ {start : Reader} {inner : Parse α}, start.Steady → Agrees start (nested body) inner →
      body inner start = body (nested body) start) : Recurses body (nested body) := by
  intro reader inner hs hagree
  have hfirst := leads_round reader
  have hguard : Agrees reader.round (nested body) (below reader.unread (nested body)) :=
    fun _ _ hlt => if_pos hlt
  have hinner : Agrees reader.round (nested body) inner :=
    fun below hmoves hlt => hagree below (hfirst.moves.trans hmoves) hlt
  rw [nested_apply, hbody (hfirst.steady hs) hguard, hbody (hfirst.steady hs) hinner]

/-! ## Congruence -/

variable {p p' : Parse α} {f g : α → Parse β} {Q : α → Reader → Prop} {R : β → Reader → Prop}
  {c d e : Int}

/-- What comes after an action matters only where that leads to. -/
theorem bind_congr (h : start.Leads c reader) (hp : reader.Runs p d e Q) (heq : p' reader = p reader)
    (hf : ∀ a between, start.Leads (c + d) between → reader.Leads d between → Q a between →
      f a between = g a between) : (p' >>= f) reader = (p >>= g) reader := by
  show EStateM.bind p' f reader = EStateM.bind p g reader
  unfold EStateM.bind
  rw [heq]
  cases hres : p reader with
  | error error after => rfl
  | ok a between =>
    obtain ⟨hleads, hq⟩ := hp.ok a between hres
    exact hf a between (h.trans hleads) hleads hq

theorem bind_congr_left (heq : p' reader = p reader) : (p' >>= f) reader = (p >>= f) reader := by
  show EStateM.bind p' f reader = EStateM.bind p f reader
  unfold EStateM.bind
  rw [heq]

theorem map_congr {h : α → β} (heq : p' reader = p reader) : (h <$> p') reader = (h <$> p) reader := by
  show EStateM.map h p' reader = EStateM.map h p reader
  unfold EStateM.map
  rw [heq]

theorem Agrees.bind_congr {rec inner : Parse α} (h : Agrees start rec inner)
    (hmoves : Moves start reader) (hlt : reader.unread < start.unread) (hrec : reader.Runs rec d e Q)
    (hf : ∀ a between, reader.Leads d between → f a between = g a between) :
    (inner >>= f) reader = (rec >>= g) reader :=
  Parse.bind_congr (Leads.refl reader) hrec (h reader hmoves hlt) fun a between _ hl _ =>
    hf a between hl

theorem repeatUntil_congr {step step' : Parse (α ⊕ β)} {R : Reader → β → Reader → Prop}
    (hstep : ∀ inside : Reader, Moves reader inside → inside.unread ≤ reader.unread →
      inside.Runs step c e (inside.Round (fun _ => True) Q (R inside)) ∧
        step' inside = step inside) :
    repeatUntil step' reader = repeatUntil step reader := by
  induction hn : reader.unread using Nat.strongRecOn generalizing reader with
  | ind n ih =>
    have hfirst := leads_round reader
    obtain ⟨hrun, heq⟩ := hstep reader.round hfirst.moves (Nat.le_refl _)
    rw [repeatUntil_apply, repeatUntil_apply, heq]
    cases hres : step reader.round with
    | error error between => rfl
    | ok result between =>
      obtain ⟨-, hr⟩ := hrun.ok _ _ hres
      cases result with
      | inr b => rfl
      | inl a =>
        obtain ⟨hpaid, -⟩ := hr
        have hlt : between.unread < reader.unread := hpaid.unread_lt (by decide)
        have hrest := ih _ (hn ▸ hlt) (fun inside hmoves hle => hstep inside
          ((hfirst.moves.trans hpaid.moves).trans hmoves) (by omega)) rfl
        show below _ (repeatUntil step' >>= _) between = below _ (repeatUntil step >>= _) between
        unfold below
        rw [if_pos hlt, if_pos hlt]
        exact bind_congr_left hrest

end Parse

namespace Grammar

open Parse

theorem itemsUntil_congr {item item' : Parse α} {Q : α → Reader → Prop} {e : Int} (close : Punct)
    (he : 0 ≤ e) (hs : reader.Steady)
    (hitem : ∀ inside : Reader, Moves reader inside → inside.unread ≤ reader.unread →
      inside.Runs item (-2) e Q)
    (heq : ∀ inside : Reader, Moves reader inside → inside.unread ≤ reader.unread →
      item' inside = item inside) :
    itemsUntil close item' reader = itemsUntil close item reader := by
  rw [itemsUntil_eq, itemsUntil_eq]
  refine repeatUntil_congr (c := 1) (e := e + 1) (Q := Q)
    (R := fun inside closing after => inside.Since after closing.id) fun inside hmoves hle => ?_
  have hs' := hmoves.steady hs
  have hbelow : ∀ {below : Reader}, inside.Leads 1 below → below.unread ≤ reader.unread := fun h =>
    Nat.le_trans (h.unread_le (by decide)) hle
  refine ⟨itemStep_runs close he hs' fun below h =>
    hitem below (hmoves.trans h.moves) (hbelow h), ?_⟩
  refine bind_congr (Leads.refl inside) (mark?_runs close hs') rfl fun found between h _ _ => ?_
  cases found with
  | some link => rfl
  | none => exact map_congr (heq between (hmoves.trans h.moves) (hbelow h))

/-! ## Types -/

/-- A type, in which `type` reads the types it is made of. -/
def typeBody (type : Parse FieldType) : Parse FieldType := do
  let name ← name true
  let (build, last) ← openType type name
  let (annotations, last) ← trailingAnnotations last .allow
  return build (← span name.head.id last) annotations

theorem fieldType_eq : fieldType = nested typeBody := rfl

section Types

variable {type : Parse FieldType} (hs : start.Steady) (hagree : Agrees start fieldType type)

include hs hagree

theorem mapType_congr (h : start.Leads (-8) reader) : mapType type reader = mapType fieldType reader := by
  refine bind_congr h (cppType?_runs (h.steady hs)) rfl fun _ _ h _ _ => ?_
  refine bind_congr h (mark_runs .less (h.steady hs)) rfl fun _ _ h _ _ => ?_
  refine hagree.bind_congr h.moves (h.unread_lt (by decide)) (fieldType_runs (h.steady hs))
    fun _ _ hkey => ?_
  have h := h.trans hkey
  refine bind_congr h (mark_runs .comma (h.steady hs)) rfl fun _ _ h _ _ => ?_
  exact hagree.bind_congr h.moves (h.unread_lt (by decide)) (fieldType_runs (h.steady hs))
    fun _ _ _ => rfl

theorem setType_congr (h : start.Leads (-8) reader) : setType type reader = setType fieldType reader := by
  refine bind_congr h (cppType?_runs (h.steady hs)) rfl fun _ _ h _ _ => ?_
  refine bind_congr h (mark_runs .less (h.steady hs)) rfl fun _ _ h _ _ => ?_
  exact hagree.bind_congr h.moves (h.unread_lt (by decide)) (fieldType_runs (h.steady hs))
    fun _ _ _ => rfl

theorem listType_congr (h : start.Leads (-8) reader) :
    listType type reader = listType fieldType reader := by
  refine bind_congr h (mark_runs .less (h.steady hs)) rfl fun _ _ h _ _ => ?_
  exact hagree.bind_congr h.moves (h.unread_lt (by decide)) (fieldType_runs (h.steady hs))
    fun _ _ _ => rfl

theorem openType_congr {name : DottedName} (h : start.Leads (-8) reader) :
    openType type name reader = openType fieldType name reader := by
  obtain heq | heq | heq | heq := openType_cases name
  all_goals rw [heq, heq]
  · exact mapType_congr hs hagree h
  · exact setType_congr hs hagree h
  · exact listType_congr hs hagree h

end Types

/-- Before a type is read within another one, text was read. -/
theorem fieldType_recurses : Recurses typeBody fieldType := by
  rw [fieldType_eq]
  refine recurses_nested fun {start} {type} hs hagree => ?_
  refine bind_congr (Leads.refl start) (name_runs true hs) rfl fun name _ h _ hname => ?_
  exact bind_congr h (openType_runs (fun _ hb _ => fieldType_runs hb) (h.steady hs)
    (h.unread_lt (by decide)) hname.1) (openType_congr hs hagree h) fun _ _ _ _ _ => rfl

/-! ## Constants -/

/-- A constant, in which `value` reads the constants it is made of. -/
def valueBody (value : Parse ConstValue) : Parse ConstValue := do
  match ← peekSignificant with
  | some c =>
    if c = '-' ∨ c.isDigit then numberValue
    else if c = '"' ∨ c = '\'' then stringValue
    else if c = '[' then listValue value
    else if c = '{' then mapValue value
    else nameValue
  | none => nameValue

theorem constValue_eq : constValue = nested valueBody := rfl

section Constants

variable {value : Parse ConstValue} {c : Char} (hs : start.Steady)
  (hagree : Agrees start constValue value)

include hs hagree

theorem listItem_congr (hmoves : Moves start reader) (hlt : reader.unread < start.unread) :
    listItem value reader = listItem constValue reader :=
  hagree.bind_congr hmoves hlt (constValue_runs (hmoves.steady hs)) fun _ _ _ => rfl

theorem listValue_congr (h : start.Leads 1 reader) (hnext : reader.next? = some c) :
    listValue value reader = listValue constValue reader := by
  rw [listValue_eq, listValue_eq]
  refine bind_congr h (takeSeen_runs (h.steady hs).toSound hnext) rfl fun opening between h _ _ => ?_
  have hlt := h.unread_lt (by decide)
  exact bind_congr_left <| itemsUntil_congr .rightBracket (by decide) (h.steady hs)
    (fun inside hmoves hle => listItem_runs (fun _ hb _ => constValue_runs hb)
      (hmoves.steady (h.steady hs)) (Nat.lt_succ_self _))
    fun inside hmoves hle => listItem_congr hs hagree (h.moves.trans hmoves) (by omega)

theorem mapItem_congr (hmoves : Moves start reader) (hlt : reader.unread < start.unread) :
    mapItem value reader = mapItem constValue reader := by
  have hs' := hmoves.steady hs
  refine hagree.bind_congr hmoves hlt (constValue_runs hs') fun _ _ h => ?_
  refine bind_congr h (mark_runs .colon (h.steady hs')) rfl fun _ _ h _ _ => ?_
  have hle := h.unread_le (by decide)
  exact hagree.bind_congr (hmoves.trans h.moves) (by omega) (constValue_runs (h.steady hs'))
    fun _ _ _ => rfl

theorem mapValue_congr (h : start.Leads 1 reader) (hnext : reader.next? = some c) :
    mapValue value reader = mapValue constValue reader := by
  rw [mapValue_eq, mapValue_eq]
  refine bind_congr h (takeSeen_runs (h.steady hs).toSound hnext) rfl fun opening between h _ _ => ?_
  have hlt := h.unread_lt (by decide)
  exact bind_congr_left <| itemsUntil_congr .rightBrace (by decide) (h.steady hs)
    (fun inside hmoves hle => mapItem_runs (fun _ hb _ => constValue_runs hb)
      (hmoves.steady (h.steady hs)) (Nat.lt_succ_self _))
    fun inside hmoves hle => mapItem_congr hs hagree (h.moves.trans hmoves) (by omega)

end Constants

/-- Before a constant is read within another one, text was read. -/
theorem constValue_recurses : Recurses valueBody constValue := by
  rw [constValue_eq]
  refine recurses_nested fun {start} {value} hs hagree => ?_
  refine bind_congr (Leads.refl start) (peekSignificant_runs hs.toSound) rfl fun c between h _ hc => ?_
  cases c with
  | none => rfl
  | some c =>
    dsimp only
    split
    · rfl
    split
    · rfl
    split
    · exact listValue_congr hs hagree h hc.symm
    split
    · exact mapValue_congr hs hagree h hc.symm
    · rfl

end Grammar

end ThriftSyntax
