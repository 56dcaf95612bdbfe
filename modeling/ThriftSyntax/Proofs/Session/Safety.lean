import ThriftSyntax.Proofs.Session.Definition

/-!
# Safety of sessions of parsing

Reading fails for a reason in the text, or else because it cannot go on: a token that is put back is not
the last of the chain, or another one waits already or is chained before it is read, an id is looked up
that no token of the chain has, a span would end before it begins, or nothing was read. An error of the
second kind names no place. The rules may be asked for in any order, and again after errors, and none of
them meets such an error.
-/

namespace ThriftSyntax

/-- A string has a quotation mark at each end, and a comment begins, and may have to end, with marks of
its own. The token means what stands between them. -/
structure Token.Enclosed (token : Token) : Prop where
  string : token.kind = .string → ∃ quote body,
    token.raw.toList = quote :: (body ++ [quote]) ∧ token.value = String.ofList body
  comment : token.kind = .comment → ∃ opening body closing,
    token.raw.toList = opening ++ body ++ closing ∧ token.value = String.ofList body ∧
    (opening, closing) ∈ [(['#'], []), (['/', '/'], []), (['/', '*'], ['*', '/'])]

/-- A call of a rule that the parser offers. -/
inductive Call where
  | document (options : Options)
  | fieldType
  | constValue
  | field
  | annotations
deriving DecidableEq, Repr

namespace Call

/-- The nodes that the rule reads. -/
def run : Call → Parse (List Node)
  | document options => (fun node => [.document node]) <$> Grammar.document options
  | fieldType => (fun node => [.fieldType node]) <$> Grammar.fieldType
  | constValue => (fun node => [.constValue node]) <$> Grammar.constValue
  | field => (fun node => [.field node]) <$> Grammar.field
  | annotations => List.map Node.annotation <$> Grammar.annotations

/-- The reader after one call upon the other, whether or not they succeed. -/
def resume : List Call → Reader → Reader
  | [], reader => reader
  | call :: calls, reader =>
    match call.run reader with
    | .ok _ after | .error _ after => resume calls after

end Call

namespace Reader

open Parse

variable {reader after : Reader} {link : Link}

theorem enclosed_of_spells {token : Token} (h : Lexeme.Spells token.kind token.raw.toList) :
    token.Enclosed := by
  obtain ⟨kind, raw, location⟩ := token
  simp only at h
  generalize hraw : raw.toList = text at h
  constructor
  all_goals
    intro hk
    simp only at hk
    subst hk
    simp only [Token.value, hraw]
  · cases h with
    | string => exact ⟨_, _, rfl, by simp⟩
  · cases h with
    | @lineComment opening body ho =>
      obtain rfl | rfl := ho
      · exact ⟨['#'], body, [], by simp, rfl, by simp⟩
      · exact ⟨['/', '/'], body, [], by simp, rfl, by simp⟩
    | @blockComment body =>
      have hbody : (body ++ ['*', '/']).dropLast.dropLast = body := by
        rw [List.dropLast_append_of_ne_nil (by simp)]
        exact List.dropLast_concat
      exact ⟨['/', '*'], body, ['*', '/'], rfl, congrArg String.ofList hbody, by simp⟩

theorem Sound.enclosed (hs : reader.Sound) : ∀ token ∈ reader.chain.toList, token.Enclosed := by
  intro token ht
  rw [← TokenChain.map_token_links] at ht
  obtain ⟨link, hl, rfl⟩ := List.mem_map.1 ht
  exact enclosed_of_spells (hs.spells link hl)

/-- The slot for a token that is put back is empty or has the last one of the chain, and strings and
comments are enclosed. -/
structure Safe (reader : Reader) : Prop where
  slot : ∀ link, reader.held = some link → reader.chain.links.getLast? = some link
  enclosed : ∀ token ∈ reader.chain.toList, token.Enclosed

theorem Steady.safe (hs : reader.Steady) : reader.Safe := ⟨hs.slot, hs.toSound.enclosed⟩

end Reader

namespace Call

open Reader

variable {reader : Reader}

theorem run_runs (call : Call) (hs : reader.Steady) :
    reader.Runs call.run 2 4 fun nodes after => ∀ node ∈ nodes, node.Inside after.chain.size := by
  have hone : ∀ {α : Type} {p : Parse α} {c e : Int} {f : α → Node} {Q : α → Reader → Prop}, c ≤ 2 →
      e ≤ 4 → reader.Runs p c e Q → (∀ a after, Q a after → (f a).Inside after.chain.size) →
      reader.Runs ((fun a => [f a]) <$> p) 2 4 fun nodes after =>
        ∀ node ∈ nodes, node.Inside after.chain.size := fun hc he hp hQ =>
    Yields.map (hp.mono hc he fun a after _ hq => List.forall_mem_singleton.2 (hQ a after hq))
  cases call with
  | document options =>
    exact hone (by decide) (by decide) (Grammar.document_runs options hs) fun _ _ hq => hq
  | fieldType => exact hone (by decide) (by decide) (Grammar.fieldType_runs hs) fun _ _ hq => hq
  | constValue => exact hone (by decide) (by decide) (Grammar.constValue_runs hs) fun _ _ hq => hq.1
  | field => exact hone (by decide) (by decide) (Grammar.field_runs hs) fun _ _ hq => hq
  | annotations =>
    exact Yields.map ((Grammar.annotations_runs hs).mono (by decide) (by decide) fun nodes after _ hq =>
      hq.forall_mem)

/-- What moves keep, and what stays when text is dropped, holds after any calls. -/
theorem resume_induction {P : Reader → Prop}
    (hmoves : ∀ {reader after : Reader}, Moves reader after → P reader → P after)
    (hdrop : ∀ {reader : Reader} n, P reader → P (reader.drop n)) (calls : List Call)
    (hs : reader.Steady) (h : P reader) : P (resume calls reader) := by
  induction calls generalizing reader with
  | nil => exact h
  | cons call calls ih =>
    have hrun := call.run_runs hs
    rw [resume]
    cases hres : call.run reader with
    | ok nodes after =>
      obtain ⟨hleads, -⟩ := hrun.ok _ _ hres
      exact ih (hleads.steady hs) (hmoves hleads.moves h)
    | error error after =>
      have hfails := hrun.error _ _ hres
      refine ih (hfails.steady hs) ?_
      obtain ⟨-, last, hlast, rfl | ⟨-, n, rfl⟩⟩ := hfails
      · exact hmoves hlast.moves h
      · exact hdrop n (hmoves hlast.moves h)

theorem resume_steady (calls : List Call) (hs : reader.Steady) : (resume calls reader).Steady :=
  resume_induction (fun h => h.steady) (fun n h => h.drop n) calls hs hs

/-- Whatever is called upon a text, and whatever came of it: a further call gives nodes, or an error
about a place in the text. Each node, with all that is below it, begins and ends with tokens of the
chain, the last not before the first. Before and after the call, the slot is empty or has the last token
that is chained, and every string and every comment is enclosed. -/
theorem resume_safe (text : String) (calls : List Call) (call : Call) :
    (resume calls (.ofText text.toList)).Safe ∧
    (∀ nodes after, call.run (resume calls (.ofText text.toList)) = .ok nodes after →
      after.Safe ∧ ∀ node ∈ nodes, node.Inside after.chain.size) ∧
    ∀ error after, call.run (resume calls (.ofText text.toList)) = .error error after →
      after.Safe ∧ error.location?.isSome = true := by
  have hs := resume_steady calls (steady_ofText text.toList)
  have hrun := call.run_runs hs
  refine ⟨hs.safe, fun nodes after h => ?_, fun error after h => ?_⟩
  · obtain ⟨hleads, hnodes⟩ := hrun.ok nodes after h
    exact ⟨(hleads.steady hs).safe, hnodes⟩
  · have hfails := hrun.error error after h
    exact ⟨(hfails.steady hs).safe, hfails.located⟩

/-- A word is no field, and what follows it may still be read as a type. -/
theorem resume_safe_words :
    field.run.run' (.ofText "i32 x".toList) = none ∧
    ∃ nodes after, fieldType.run (resume [field] (.ofText "i32 x".toList)) = .ok nodes after ∧
      ∀ node ∈ nodes, node.Inside after.chain.size := by
  obtain ⟨-, hok, -⟩ := resume_safe "i32 x" [field] fieldType
  have hsome : (fieldType.run.run' (resume [field] (.ofText "i32 x".toList))).isSome = true := by
    decide +kernel
  refine ⟨by decide +kernel, ?_⟩
  unfold EStateM.run' EStateM.run at hsome
  cases h : fieldType.run (resume [field] (.ofText "i32 x".toList)) with
  | ok nodes after => exact ⟨nodes, after, rfl, (hok nodes after h).2⟩
  | error error after =>
    rw [h] at hsome
    cases hsome

end Call

end ThriftSyntax
