import Pathologist.Preproc.Expand

/-!
# Conditions

The controlling expression of `#if` and `#elif`: its tokens are expanded with `defined` as
an operator over names that are not expanded, then read with C's precedence and evaluated
in 64 bits. What cannot be read is false.
-/
namespace Pathologist.Preproc
open EnvM

/-- An integer of the preprocessor, `intmax_t` or `uintmax_t`. -/
structure PpVal where
  bits : BitVec 64
  isUnsigned : Bool
  deriving DecidableEq

namespace PpVal

def zero : PpVal := ⟨0, false⟩

def fromBool (b : Bool) : PpVal := ⟨if b then 1 else 0, false⟩

def truthy (v : PpVal) : Bool := v.bits != 0

def eitherUnsigned (a b : PpVal) : Bool := a.isUnsigned || b.isUnsigned

/-- An operation on the bits under the usual conversions. -/
def combine (f : BitVec 64 → BitVec 64 → BitVec 64) (a b : PpVal) : PpVal :=
  ⟨f a.bits b.bits, a.eitherUnsigned b⟩

/-- Less than, in the common type. -/
def lt (a b : PpVal) : Bool :=
  if a.eitherUnsigned b then a.bits.ult b.bits else a.bits.slt b.bits

def shiftLeft (a b : PpVal) : PpVal := ⟨a.bits <<< (b.bits.toNat % 64), a.isUnsigned⟩

def shiftRight (a b : PpVal) : PpVal :=
  let n := b.bits.toNat % 64
  ⟨if a.isUnsigned then a.bits >>> n else a.bits.sshiftRight n, a.isUnsigned⟩

/-- Division or remainder; by zero both are 0. -/
def divide (rem : Bool) (a b : PpVal) : PpVal :=
  if b.bits = 0 then ⟨0, a.eitherUnsigned b⟩
  else if a.eitherUnsigned b then combine (if rem then (· % ·) else (· / ·)) a b
  else combine (if rem then BitVec.srem else BitVec.sdiv) a b

end PpVal

def digitValue (c : Char) : ℕ :=
  if isDigit c then c.toNat - '0'.toNat
  else if 'a' ≤ c ∧ c ≤ 'f' then c.toNat - 'a'.toNat + 10
  else if 'A' ≤ c ∧ c ≤ 'F' then c.toNat - 'A'.toNat + 10
  else 16

/-- The value of a digit string in a radix, if it has one that fits 128 bits. -/
def fromStrRadix (digits : Text) (radix : ℕ) : Option ℕ :=
  if digits.isEmpty || digits.any fun c => decide (radix ≤ digitValue c) then none
  else
    let v := digits.foldl (fun v c => v * radix + digitValue c) 0
    if v < 2 ^ 128 then some v else none

def isIntSuffix (c : Char) : Bool := c == 'u' || c == 'U' || c == 'l' || c == 'L'

def parsePpInt (s : Text) : Option PpVal :=
  let suffix := s.reverse.takeWhile isIntSuffix
  let t := (s.reverse.dropWhile isIntSuffix).reverse
  let value := match t with
    | '0' :: 'x' :: h | '0' :: 'X' :: h => fromStrRadix h 16
    | '0' :: 'b' :: b | '0' :: 'B' :: b => fromStrRadix b 2
    | '0' :: c :: o => fromStrRadix (c :: o) 8
    | t => fromStrRadix t 10
  value.map fun v =>
    ⟨BitVec.ofNat 64 v, suffix.any (fun c => c == 'u' || c == 'U') || decide (2 ^ 63 - 1 < v)⟩

/-- Body of a character literal, without its encoding prefix. -/
def charLiteralBody (spelling : Text) : Option Text :=
  let body := match spelling.dropWhile (· != '\'') with
    | [] => spelling
    | _ :: rest => rest
  if body.getLast? = some '\'' then some body.dropLast else none

def escapeValue (c : Char) : Option ℕ :=
  match c with
  | 'n' => some 10 | 't' => some 9 | 'r' => some 13 | 'a' => some 7 | 'b' => some 8
  | 'f' => some 12 | 'v' => some 11 | '\\' => some 92 | '\'' => some 39 | '"' => some 34
  | '?' => some 63
  | _ => none

/-- Value of a character constant's body. -/
def charValue : Text → BitVec 64
  | '\\' :: 'x' :: rest =>
    (rest.takeWhile fun c => decide (digitValue c < 16)).foldl
      (fun v c => v * 16 + BitVec.ofNat 64 (digitValue c)) 0
  | '\\' :: c :: rest =>
    match escapeValue c with
    | some n => BitVec.ofNat 64 n
    | none =>
      if digitValue c < 8 then
        BitVec.ofNat 64 <| (c :: (rest.take 2).takeWhile fun d => decide (digitValue d < 8)).foldl
          (fun v d => v * 8 + digitValue d) 0
      else BitVec.ofNat 64 c.toNat
  | ['\\'] => 0
  | c :: _ => BitVec.ofNat 64 c.toNat
  | [] => 0

/-- A value that was read, the tokens after it, and whether something was malformed. -/
structure Parsed where
  val : PpVal
  rest : List Token
  err : Bool

/-- What the parser reads at a position. -/
abbrev ExprParser := List Token → Parsed

/-- The operators of one level of precedence. -/
abbrev Level := Punct → Option (PpVal → PpVal → PpVal)

def Parsed.malformed (rest : List Token) : Parsed := ⟨.zero, rest, true⟩

/-- The level's operators after the value `v`, grouped to the left. -/
def leftAssocFrom (ops : Level) (operand : ExprParser) : ℕ → Parsed → Parsed
  | 0, v => v
  | fuel + 1, v =>
    match v.rest with
    | t :: rest =>
      match t.kind with
      | .punct p =>
        match ops p with
        | some f =>
          let r := operand rest
          leftAssocFrom ops operand fuel ⟨f v.val r.val, r.rest, v.err || r.err⟩
        | none => v
      | _ => v
    | [] => v

def leftAssoc (ops : Level) (operand : ExprParser) : ExprParser := fun toks =>
  leftAssocFrom ops operand toks.length (operand toks)

def multiplicativeOps : Level
  | .star => some (PpVal.combine (· * ·))
  | .slash => some (PpVal.divide false)
  | .percent => some (PpVal.divide true)
  | _ => none

def additiveOps : Level
  | .plus => some (PpVal.combine (· + ·))
  | .minus => some (PpVal.combine (· - ·))
  | _ => none

def shiftOps : Level
  | .shl => some PpVal.shiftLeft
  | .shr => some PpVal.shiftRight
  | _ => none

def relationalOps : Level
  | .le => some fun v r => .fromBool (!PpVal.lt r v)
  | .ge => some fun v r => .fromBool (!PpVal.lt v r)
  | .lt => some fun v r => .fromBool (PpVal.lt v r)
  | .gt => some fun v r => .fromBool (PpVal.lt r v)
  | _ => none

def equalityOps : Level
  | .eqEq => some fun v r => .fromBool (v.bits == r.bits)
  | .ne => some fun v r => .fromBool (v.bits != r.bits)
  | _ => none

def bitAndOps : Level
  | .amp => some (PpVal.combine (· &&& ·))
  | _ => none

def bitXorOps : Level
  | .caret => some (PpVal.combine (· ^^^ ·))
  | _ => none

def bitOrOps : Level
  | .bar => some (PpVal.combine (· ||| ·))
  | _ => none

def logicalAndOps : Level
  | .ampAmp => some fun v r => .fromBool (v.truthy && r.truthy)
  | _ => none

def logicalOrOps : Level
  | .barBar => some fun v r => .fromBool (v.truthy || r.truthy)
  | _ => none

/-- Past the argument list of a call form that nothing expanded, from its parenthesis. -/
def swallowCall : ℕ → List Token → Parsed
  | _, [] => .malformed []
  | depth, t :: rest =>
    if t.isPunct .lparen then swallowCall (depth + 1) rest
    else if t.isPunct .rparen then
      if depth = 1 then ⟨.zero, rest, false⟩ else swallowCall (depth - 1) rest
    else swallowCall depth rest

/-- The literal's value, if it is an integer constant. -/
def constant (v : Option PpVal) (rest : List Token) : Parsed :=
  match v with
  | some v => ⟨v, rest, false⟩
  | none => .malformed rest

def primary (ternary : ExprParser) : ExprParser
  | [] => .malformed []
  | t :: rest =>
    match t.kind with
    | .number s => constant (parsePpInt s) rest
    | .char s => constant ((charLiteralBody s).map fun body => ⟨charValue body, false⟩) rest
    | .punct .lparen =>
      let v := ternary rest
      match v.rest with
      | closing :: after =>
        if closing.isPunct .rparen then ⟨v.val, after, v.err⟩ else ⟨v.val, v.rest, true⟩
      | [] => ⟨v.val, [], true⟩
    | .identifier name =>
      if name == "true".toList then ⟨.fromBool true, rest, false⟩
      else if name == "false".toList then ⟨.zero, rest, false⟩
      else if rest.head?.any (·.isPunct .lparen) then swallowCall 0 rest
      else ⟨.zero, rest, false⟩
    | _ => .malformed rest

def unary (ternary : ExprParser) : ExprParser
  | [] => primary ternary []
  | t :: rest =>
    match t.kind with
    | .punct .bang => let v := unary ternary rest; ⟨.fromBool !v.val.truthy, v.rest, v.err⟩
    | .punct .tilde =>
      let v := unary ternary rest; ⟨⟨~~~v.val.bits, v.val.isUnsigned⟩, v.rest, v.err⟩
    | .punct .minus => let v := unary ternary rest; ⟨⟨-v.val.bits, v.val.isUnsigned⟩, v.rest, v.err⟩
    | .punct .plus => unary ternary rest
    | _ => primary ternary (t :: rest)

/-- Every binary level above `unary`, loosest last. -/
def logicalOr (ternary : ExprParser) : ExprParser :=
  [multiplicativeOps, additiveOps, shiftOps, relationalOps, equalityOps, bitAndOps, bitXorOps,
    bitOrOps, logicalAndOps, logicalOrOps].foldl (fun operand ops => leftAssoc ops operand)
    (unary ternary)

def ternary : ℕ → ExprParser
  | 0, toks => .malformed toks
  | fuel + 1, toks =>
    let c := logicalOr (ternary fuel) toks
    match c.rest with
    | t :: rest =>
      if t.isPunct .question then
        let a := ternary fuel rest
        let b := match a.rest with
          | colon :: after => if colon.isPunct .colon then ternary fuel after else .malformed a.rest
          | [] => .malformed []
        ⟨⟨if c.val.truthy then a.val.bits else b.val.bits, a.val.eitherUnsigned b.val⟩, b.rest,
          c.err || a.err || b.err⟩
      else c
    | [] => c

/-- The truth of an expanded condition. A malformed one, or one with tokens left over, is
false. -/
def evalPpTokens (toks : List Token) : Bool :=
  let v := ternary (toks.length + 1) toks
  !v.err && v.rest.isEmpty && v.val.truthy

def maxConditionTokens : ℕ := 1 <<< 16

def maxConditionSteps : ℕ := 1 <<< 20

/-- A name that only a builtin fallback defines does not count as defined. -/
def isDefinedForConditionals (name : Text) : EnvM Bool := do
  match ← readMacro name with
  | some (_, fallback) => pure !fallback
  | none => pure false

def warnConditionBudget (line : ℕ) : EnvM Unit :=
  warn line "macro expansion budget exceeded in #if condition; treating as false".toList

/-- Expand condition tokens on one work list: `i` of them are dealt with, `out` is what they
came to. The budget for steps is the fuel. -/
def expandConditionTokensFrom : ℕ → ℕ → List Token → List Token → EnvM (Option (List Token))
  | _, _, out, [] => pure (some out)
  | 0, _, _, t :: _ => do
    warnConditionBudget t.line
    pure none
  | fuel + 1, i, out, t :: rest => do
    if maxConditionTokens < i + (rest.length + 1) ∨ maxConditionTokens < out.length then
      warnConditionBudget t.line
      pure none
    else
      let keep := expandConditionTokensFrom fuel (i + 1) (out ++ [t]) rest
      match identName t with
      | none => keep
      | some name =>
        if name = definedName then
          let (operand, consumed) := definedOperand rest
          let val ← match operand with
            | some n => isDefinedForConditionals n
            | none => pure false
          expandConditionTokensFrom fuel (i + consumed)
            (out ++ [Token.new (.number (if val then ['1'] else ['0'])) t.line t.col])
            (rest.drop (consumed - 1))
        else if name == "__LINE__".toList then
          expandConditionTokensFrom fuel (i + 1)
            (out ++ [Token.new (.number (toString t.expansionSite.1).toList) t.line t.col]) rest
        else if t.isHidden name then keep
        else
          match ← readMacro name with
          | some (.object replacement, false) =>
            expandConditionTokensFrom fuel i out (paintReplacement replacement t name ++ rest)
          | some (.function params replacement variadic, false) =>
            match parseCondMacroArgs rest with
            | some (args, after) =>
              if maxConditionTokens <
                  i + after.length + projectedSubstitutionLen replacement params args variadic then
                warnConditionBudget t.line
                pure none
              else
                expandConditionTokensFrom fuel i out (applyConcatenation (substituteMacro
                    { macroName := name, origin := t, body := replacement, params, args,
                      expandedArgs := none, variadic }) ++ after)
            | none => keep
          | _ => keep

def expandConditionTokens (toks : List Token) : EnvM (Option (List Token)) :=
  expandConditionTokensFrom maxConditionSteps 0 [] toks

/-- The truth of the condition these tokens of a line spell. -/
def expandAndEvalCondition (toks : List Token) : EnvM Bool := do
  match ← expandConditionTokens toks with
  | some expanded => pure (evalPpTokens expanded)
  | none => pure false

section Silent
variable {E : PreprocessError → Prop}

lemma silent_isDefinedForConditionals (name : Text) :
    EnvM.Silent E (isDefinedForConditionals name) := by
  refine ⟨trivial, fun (answer : Option (MacroDef × Bool)) => ?_⟩
  cases answer <;> exact trivial

lemma silent_expandConditionTokensFrom (fuel i : ℕ) (out toks : List Token) :
    EnvM.Silent E (expandConditionTokensFrom fuel i out toks) := by
  have hstop : ∀ line, EnvM.Silent E (do
      warnConditionBudget line; pure none : EnvM (Option (List Token))) :=
    fun line => (silent_warn line _).bind fun _ => trivial
  induction fuel generalizing i out toks with
  | zero =>
    cases toks with
    | nil => trivial
    | cons t rest => exact hstop t.line
  | succ fuel ih =>
    cases toks with
    | nil => trivial
    | cons t rest =>
      simp only [expandConditionTokensFrom]
      split_ifs
      · exact hstop t.line
      split
      · exact ih _ _ _
      split_ifs
      · split
        · exact (silent_isDefinedForConditionals _).bind fun _ => ih _ _ _
        · exact ih _ _ _
      · exact ih _ _ _
      · exact ih _ _ _
      -- A name that may be a macro: the answer decides.
      refine Lib.Program.Only.bind (p := readMacro _) ⟨trivial, fun _ => trivial⟩ fun answer => ?_
      split
      · exact ih _ _ _
      · split
        · split_ifs
          · exact hstop _
          · exact ih _ _ _
        · exact ih _ _ _
      · exact ih _ _ _

lemma silent_expandAndEvalCondition (toks : List Token) :
    EnvM.Silent E (expandAndEvalCondition toks) := by
  refine (silent_expandConditionTokensFrom _ _ _ _).bind fun expanded => ?_
  cases expanded <;> exact trivial

end Silent
end Pathologist.Preproc
