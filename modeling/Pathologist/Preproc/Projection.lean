import Mathlib.Algebra.Order.BigOperators.Group.List
import Pathologist.Preproc.Pasting

/-!
# The projected length of a replacement

Before an invocation is substituted its length is projected: a token of the replacement list
counts as one, a parameter as the argument that it stands for. No step of the substitution writes
more than is counted for the tokens that it goes past, and pasting only takes tokens away.
-/
open List
namespace Pathologist.Preproc
open Lib.Loop (run)
open Token

lemma map_kind_markAdjacency (adjacency : Bool) (a : List Token) :
    (markAdjacency adjacency a).map kind = a.map kind := by
  induction a with
  | nil => rfl
  | cons t a ih =>
    rw [markAdjacency]
    split
    · rw [map_cons, map_cons, ih]
    · rfl

lemma length_variadicTokens_le (a : MacroArgs) (idx : ℕ) :
    (a.variadicTokens idx).length ≤ a.variadicLen idx := by
  unfold MacroArgs.variadicTokens MacroArgs.variadicLen
  cases a.args.drop idx with
  | nil => exact Nat.zero_le _
  | cons first others =>
    have hothers (separators : List Token) :
        ((separators.zip others).flatMap fun p => p.1 :: p.2).length ≤
          (others.map List.length).sum + others.length := by
      induction others generalizing separators with
      | nil => simp
      | cons other others ih =>
        cases separators with
        | nil => simp
        | cons separator separators =>
          have hrest := ih separators
          simp only [zip_cons_cons, flatMap_cons, length_append, length_cons, map_cons, sum_cons]
          omega
    have hlen := hothers (a.separators.drop idx)
    simp only [length_append, map_cons, sum_cons, length_cons]
    omega

lemma length_argumentTokens_le (params : List Text) (variadic : Bool) (args : MacroArgs) (idx : ℕ) :
    (argumentTokens params variadic args idx).length ≤ argumentWidth params variadic args idx := by
  unfold argumentTokens argumentWidth
  split
  · exact length_variadicTokens_le args idx
  · cases args.args[idx]? with
    | none => exact Nat.zero_le _
    | some arg => exact le_rfl

namespace Substitution
variable {m : Substitution} {s : Substituting} {t : Token} {i : ℕ}

/-- What the body's token at a position may come to. -/
def widthAt (m : Substitution) (p : Token × ℕ) : ℕ :=
  (parameterOf m.params p.1).elim 1 fun idx => (m.parameterTokens p.2 idx).length

/-- What the body from a position on may come to. -/
def widthFrom (m : Substitution) (i : ℕ) : ℕ := ((m.body.zipIdx.drop i).map m.widthAt).sum

lemma length_parameterTokens_le (m : Substitution) (i idx : ℕ) : (m.parameterTokens i idx).length ≤
    argumentWidth m.params m.variadic (if parameterIsPastedOrStringized m.body i then m.args
      else m.expandedArgs.getD m.args) idx := by
  rw [parameterTokens, length_map]
  exact length_argumentTokens_le _ _ _ _

lemma widthFrom_cons (h : m.body[i]? = some t) :
    m.widthFrom i = m.widthAt (t, i) + m.widthFrom (i + 1) := by
  obtain ⟨hlt, rfl⟩ := List.getElem?_eq_some_iff.mp h
  rw [widthFrom, drop_eq_getElem_cons (by simpa using hlt), map_cons]
  simp [widthFrom]

lemma widthFrom_le {j : ℕ} (h : i ≤ j) : m.widthFrom j ≤ m.widthFrom i := by
  obtain ⟨k, rfl⟩ := Nat.exists_eq_add_of_le h
  unfold widthFrom
  rw [← drop_drop]
  exact ((drop_sublist k _).map _).sum_le_sum fun _ _ => Nat.zero_le _

lemma length_push (s : Substituting) (t : Token) (width : ℕ) :
    (s.push t width).out.length = s.out.length + 1 := by
  rw [Substituting.push, length_append, length_singleton]

lemma length_put_le (s : Substituting) (body : List Token) (adjacency : Bool) (toks : List Token) :
    (s.put body adjacency toks).out.length ≤ s.out.length + toks.length ∧
      s.i + 1 ≤ (s.put body adjacency toks).i := by
  unfold Substituting.put
  split
  · split
    · exact ⟨length_append.le, le_rfl⟩
    · exact ⟨Nat.le_add_right _ _, Nat.le_add_right _ _⟩
  · have hmarked := congrArg List.length (map_kind_markAdjacency (adjacency && !s.gap) toks)
    rw [length_map, length_map] at hmarked
    exact ⟨(length_append.trans (congrArg _ hmarked)).le, le_rfl⟩

lemma le_of_inertPaste {width next : ℕ} {dropComma : Bool}
    (h : m.inertPaste i width = some (next, dropComma)) : i ≤ next := by
  obtain ⟨idx, -, h⟩ := Option.bind_eq_some_iff.mp h
  dsimp only at h
  split_ifs at h <;> cases h <;> omega

/-- A step writes no more than is counted for what it goes past. -/
lemma length_step_le (ht : m.body[s.i]? = some t) :
    (m.step s t).out.length + m.widthFrom (m.step s t).i ≤ s.out.length + m.widthFrom s.i := by
  rcases m.step_cases s t with ⟨width, next, dropComma, -, hinert, heq⟩ | ⟨-, heq⟩
  · have hnext := widthFrom_le (m := m) (le_of_inertPaste hinert)
    rw [heq]
    refine Nat.add_le_add ?_ hnext
    cases dropComma with
    | false => exact le_rfl
    | true => exact (length_dropLast.trans_le (Nat.sub_le _ _))
  rw [heq, widthFrom_cons ht, widthAt]
  generalize s.pasteAdjacency.getD t.adjacentBefore = adjacency
  cases hp : parameterOf m.params t with
  | some idx =>
    obtain ⟨hlen, hnext⟩ := length_put_le s m.body adjacency (m.parameterTokens s.i idx)
    have hrest := widthFrom_le (m := m) hnext
    rw [substituteToken_of_parameter hp]
    dsimp [Option.elim]
    omega
  | none =>
    cases hh : m.stringizedParameter s.i t with
    | some idx =>
      have hskip : m.widthFrom (s.i + 2) ≤ m.widthFrom (s.i + 1) := widthFrom_le (Nat.le_succ _)
      rw [substituteToken_of_stringized hh, length_push]
      dsimp [Substituting.push]
      omega
    | none =>
      rw [substituteToken_of_neither hh hp, length_push]
      dsimp [Substituting.push]
      omega

lemma length_loop_le (fuel : ℕ) (s : Substituting) :
    (m.loop fuel s).length ≤ s.out.length + m.widthFrom s.i := by
  induction fuel generalizing s with
  | zero => exact Nat.le_add_right _ _
  | succ fuel ih =>
    unfold loop
    cases ht : m.body[s.i]? with
    | none => exact Nat.le_add_right _ _
    | some t => exact (ih _).trans (length_step_le ht)

lemma length_substituteMacro_le (m : Substitution) : (substituteMacro m).length ≤ m.widthFrom 0 :=
  (length_loop_le _ _).trans_eq (Nat.zero_add _)

end Substitution

lemma length_applyConcatenation_le (toks : List Token) :
    (applyConcatenation toks).length ≤ toks.length := by
  have hrun : (run pasteStep toks.length ([], toks)).1.length +
      (run pasteStep toks.length ([], toks)).2.length ≤ toks.length :=
    Lib.Loop.run_invariant
      (fun s s' hs hstep => (length_pasteStep hstep).2.trans hs) _ (Nat.zero_add _).le
  rw [applyConcatenation_eq, pasted, length_reverse]
  exact (Nat.le_add_right _ _).trans hrun

/-- For every invocation: what its substitution leaves, once pasted, is no longer than projected,
with raw arguments and with prescanned ones. -/
theorem length_replacement_le (macroName : Text) (origin : Token) (body : List Token)
    (params : List Text) (args : MacroArgs) (variadic : Bool) : (applyConcatenation (substituteMacro
        ⟨macroName, origin, body, params, args, none, variadic⟩)).length ≤
      projectedSubstitutionLen body params args variadic ∧
    ∀ expanded, (applyConcatenation (substituteMacro
        ⟨macroName, origin, body, params, args, some expanded, variadic⟩)).length ≤
      projectedSubstitutionLenWithPrescan body params args expanded variadic := by
  have hlen (m : Substitution) :
      (applyConcatenation (substituteMacro m)).length ≤ (m.body.zipIdx.map m.widthAt).sum :=
    (length_applyConcatenation_le _).trans m.length_substituteMacro_le
  constructor
  · refine (hlen _).trans ?_
    unfold projectedSubstitutionLen
    conv_rhs => rw [← zipIdx_map_fst 0 body, map_map]
    refine sum_le_sum fun p _ => ?_
    unfold Substitution.widthAt
    dsimp
    cases parameterOf params p.1 with
    | none => exact le_rfl
    | some idx =>
      have hwidth := Substitution.length_parameterTokens_le
        ⟨macroName, origin, body, params, args, none, variadic⟩ p.2 idx
      rwa [Option.getD_none, ite_self] at hwidth
  · refine fun expanded => (hlen _).trans (sum_le_sum fun p _ => ?_)
    unfold Substitution.widthAt
    cases parameterOf params p.1 with
    | none => exact le_rfl
    | some idx => exact Substitution.length_parameterTokens_le _ p.2 idx

end Pathologist.Preproc
