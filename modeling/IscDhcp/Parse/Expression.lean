import IscDhcp.Parse.Conflex
import IscDhcp.Lib.OpTree

/-!
Expressions with binary operators (`parse_expression` in `parse.c`).

The parser is generic in the operands: `nonBinary` stands for `parse_non_binary`, which reads one
operand in a context and may itself read whole expressions, and `context` for the type of an
operand. A file is the list of the tokens that are left.
-/

namespace IscDhcp.Expression

open IscDhcp.Conflex IscDhcp.Lib

/-! ### Operators -/

inductive BinOp
  | equal | notEqual | regexMatch | iregexMatch | and | or | add | subtract | divide | multiply
  | remainder | binaryAnd | binaryOr | binaryXor
  deriving DecidableEq, Repr

inductive Context
  | any | boolean | data | numeric | dns | dataOrNumeric | function
  deriving DecidableEq, Repr

def opVal : BinOp → ℕ
  | .binaryAnd | .binaryOr | .binaryXor => 100
  | .equal | .notEqual | .regexMatch | .iregexMatch => 4
  | .or | .and => 3
  | .add | .subtract => 2
  | .multiply | .divide | .remainder => 1

def opPrecedence (op1 op2 : BinOp) : ℤ := opVal op1 - opVal op2

def opContext : BinOp → Context
  | .equal | .notEqual | .regexMatch | .iregexMatch => .data
  | .and | .or => .boolean
  | .add | .subtract | .multiply | .divide | .remainder | .binaryAnd | .binaryOr | .binaryXor =>
    .numeric

def resultContext : BinOp → Context
  | .equal | .notEqual | .regexMatch | .iregexMatch | .and | .or => .boolean
  | .add | .subtract | .multiply | .divide | .remainder | .binaryAnd | .binaryOr | .binaryXor =>
    .numeric

def bang : Token := .char '!'.toUInt8
def equal : Token := .char '='.toUInt8
def tilde : Token := .char '~'.toUInt8

def simpleOp : Token → Option BinOp
  | .keyword .and _ => some .and
  | .keyword .or _ => some .or
  | .minus => some .subtract
  | .char c =>
    if c = '='.toUInt8 then some .equal
    else if c = '+'.toUInt8 then some .add
    else if c = '/'.toUInt8 then some .divide
    else if c = '*'.toUInt8 then some .multiply
    else if c = '%'.toUInt8 then some .remainder
    else if c = '&'.toUInt8 then some .binaryAnd
    else if c = '|'.toUInt8 then some .binaryOr
    else if c = '^'.toUInt8 then some .binaryXor
    else none
  | _ => none

/-! ### The file -/

/-- The tokens that are left, whether the parser has given up, and its warnings. -/
structure Cfile where
  tokens : List Token
  lose : Bool := false
  warnings : List String := []
  deriving DecidableEq

namespace Cfile

def peek (c : Cfile) : Token := c.tokens.headD .endOfFile

def skip (c : Cfile) : Cfile := { c with tokens := c.tokens.tail }

/-- What is left after a statement, within so many open braces. -/
def skipToRbrace : ℕ → List Token → List Token
  | _, [] => []
  | braceCount, token :: tokens =>
    if token = rbrace ∧ braceCount ≤ 1 ∨ token = semi ∧ braceCount = 0 then tokens
    else skipToRbrace (if token = rbrace then braceCount - 1
      else if token = lbrace then braceCount + 1 else braceCount) tokens

def giveUp (c : Cfile) (msg : String) : Cfile :=
  { tokens := skipToRbrace 0 c.tokens, lose := true, warnings := c.warnings ++ [msg] }

end Cfile

variable (haveRegex : Bool)

/-- The operator that follows, with all but its last token taken; `none` is an error. -/
def nextOp (c : Cfile) : Option (Option BinOp) × Cfile :=
  if c.peek = bang then
    if c.skip.peek = equal then (some (some .notEqual), c.skip)
    else (none, c.skip.giveUp "! in boolean context without =")
  else if c.peek = tilde then
    if haveRegex then
      if c.skip.peek = tilde then (some (some .iregexMatch), c.skip)
      else if c.skip.peek = equal then (some (some .regexMatch), c.skip)
      else (none, c.skip.giveUp "expecting ~= or ~~ operator")
    else (none, c.giveUp "No support for regex operator.")
  else (some (simpleOp c.peek), c)

def typeError (binop : BinOp) (lhs rhs : Context) : Option String :=
  if rhs ≠ .any ∧ lhs ≠ .any ∧ rhs ≠ lhs then some "illegal expression relating different types"
  else match binop with
    | .notEqual | .equal =>
      if rhs ≠ .dataOrNumeric ∧ rhs ≠ .data ∧ rhs ≠ .numeric ∧ rhs ≠ .any then
        some "expecting data/numeric expression"
      else none
    | .regexMatch => if rhs ≠ .data then some "expecting data expression" else none
    | .and | .or =>
      if rhs ≠ .boolean ∧ rhs ≠ .any then some "expecting boolean expressions" else none
    | .add | .subtract | .divide | .multiply | .remainder | .binaryAnd | .binaryOr | .binaryXor =>
      if rhs ≠ .numeric ∧ rhs ≠ .any then some "expecting numeric expressions" else none
    | .iregexMatch => none

/-! ### The parser -/

section Parser

variable {α : Type} (nonBinary : Context → Cfile → Option α × Cfile) (context : α → Context)

def expressionContext : OpTree BinOp α → Context
  | .leaf a => context a
  | .node op _ _ => resultContext op

/-- Combine two operands, unless their types forbid it. -/
def combine (lhs : OpTree BinOp α) (binop : BinOp) (rhs : OpTree BinOp α) (c : Cfile) :
    Option (OpTree BinOp α) × Cfile :=
  match typeError binop (expressionContext context lhs) (expressionContext context rhs) with
  | some msg => (none, c.giveUp msg)
  | none => (some (.node binop lhs rhs), c)

/-- `parse_expression`, with the left-hand side and the operator that are waiting for the operand
to come. The fuel bounds the number of operands. -/
def parseExpression : ℕ → Context → Option (OpTree BinOp α × BinOp) → Cfile →
    Option (Option (OpTree BinOp α) × Cfile)
  | 0, _, _, _ => none
  | fuel + 1, ctx, pending, c =>
    match nonBinary ctx c with
    | (none, c) =>
      some (none,
        if pending.isSome ∧ c.lose = false then c.giveUp "expecting right-hand side." else c)
    | (some a, c) =>
      match nextOp haveRegex c with
      | (none, c) => some (none, c)
      | (some next, c) =>
        match pending, next with
        | none, none => some (some (.leaf a), c)
        | none, some op => parseExpression fuel (context a) (some (.leaf a, op)) c.skip
        | some (lhs, binop), none => some (combine context lhs binop (.leaf a) c)
        | some (lhs, binop), some op =>
          if opPrecedence binop op < 0 then
            -- what has been read is the left-hand side of the next operator
            match parseExpression fuel (opContext op) (some (.leaf a, op)) c.skip with
            | none => none
            | some (none, c) =>
              some (none,
                if c.lose = false then
                  { c with lose := true, warnings := c.warnings ++ ["expecting a subexpression"] }
                else c)
            | some (some rhs, c) => some (combine context lhs binop rhs c)
          else
            match combine context lhs binop (.leaf a) c with
            | (none, c) => some (none, c)
            | (some lhs, c) => parseExpression fuel (context a) (some (lhs, op)) c.skip

/-! ### Sequences of operands -/

inductive OpTokens : BinOp → List Token → Prop
  | notEqual : OpTokens .notEqual [bang, equal]
  | regexMatch : OpTokens .regexMatch [tilde, equal]
  | iregexMatch : OpTokens .iregexMatch [tilde, tilde]
  | simple {op : BinOp} {token : Token} (h : simpleOp token = some op) : OpTokens op [token]

/-- One operand is read in this context, up to the tokens `left`. -/
def Reads (ctx : Context) (tokens : List Token) (a : α) (left : List Token) : Prop :=
  ∀ c, c.tokens = tokens → ∃ c', nonBinary ctx c = (some a, c') ∧ c'.tokens = left

/-- The context in which the operand after `op` is read, when `a` was the last one and `waiting`
the operator before it. -/
def nextContext (waiting : Option BinOp) (a : α) (op : BinOp) : Context :=
  match waiting with
  | none => context a
  | some binop => if opVal binop < opVal op then opContext op else context a

/-- The tokens are those of the operand and the operators with their operands, up to `left`. -/
def Spells (left : List Token) : Context → Option BinOp → α → List (BinOp × α) → List Token → Prop
  | ctx, _, a, [], tokens => Reads nonBinary ctx tokens a left
  | ctx, waiting, a, (op, b) :: l, tokens =>
    ∃ opToks more, OpTokens op opToks ∧ Reads nonBinary ctx tokens a (opToks ++ more) ∧
      Spells left (nextContext context waiting a op) (some op) b l more

/-- No operator follows. -/
def Stops (left : List Token) : Prop :=
  left.headD .endOfFile ≠ bang ∧ left.headD .endOfFile ≠ tilde ∧
    simpleOp (left.headD .endOfFile) = none

instance (left : List Token) : Decidable (Stops left) :=
  inferInstanceAs (Decidable (_ ∧ _ ∧ _))

/-- The tree that the parser makes of the waiting operator, its operand and what follows. -/
def build (lhs : OpTree BinOp α) (binop : BinOp) (a : α) : List (BinOp × α) → OpTree BinOp α
  | [] => .node binop lhs (.leaf a)
  | (op, b) :: l =>
    if opVal binop < opVal op then .node binop lhs (build (.leaf a) op b l)
    else build (.node binop lhs (.leaf a)) op b l

/-- An operator that is followed by a tighter one is followed by tighter ones only. -/
def NoReturn : List BinOp → Prop
  | op :: op' :: ops =>
    (opVal op < opVal op' → ∀ o ∈ op' :: ops, opVal op < opVal o) ∧ NoReturn (op' :: ops)
  | _ => True

instance : (ops : List BinOp) → Decidable (NoReturn ops)
  | [] => .isTrue trivial
  | [_] => .isTrue trivial
  | op :: op' :: ops =>
    have : Decidable (NoReturn (op' :: ops)) := instDecidableNoReturn (op' :: ops)
    inferInstanceAs (Decidable ((opVal op < opVal op' → ∀ o ∈ op' :: ops, opVal op < opVal o) ∧
      NoReturn (op' :: ops)))

/-! The tree -/

variable {c : Cfile} {left : List Token} (lhs : OpTree BinOp α) (binop : BinOp)

lemma first_build (a : α) (l : List (BinOp × α)) : (build lhs binop a l).first = lhs.first := by
  induction l generalizing lhs binop a with
  | nil => rfl
  | cons x l ih =>
    rw [build]
    split_ifs
    · rfl
    · rw [ih]
      rfl

lemma rest_build (a : α) (l : List (BinOp × α)) :
    (build lhs binop a l).rest = lhs.rest ++ (binop, a) :: l := by
  induction l generalizing lhs binop a with
  | nil => rfl
  | cons x l ih =>
    rw [build]
    split_ifs
    · simp [OpTree.rest, first_build, ih, OpTree.first]
    · rw [ih]
      simp [OpTree.rest, OpTree.first]

lemma ops_build (a : α) (l : List (BinOp × α)) :
    (build lhs binop a l).ops = lhs.ops ++ binop :: l.map Prod.fst := by
  simp [OpTree.ops, rest_build]

/-- Along operators that bind no tighter the left-hand side stays grouped; a tighter one takes all
that follows for its part of the right-hand side. -/
lemma grouped_build_iff {lhs : OpTree BinOp α} {binop : BinOp} (hl : lhs.Grouped opVal)
    (hle : ∀ o ∈ lhs.root, opVal binop ≤ opVal o) (a : α) (l : List (BinOp × α)) :
    (build lhs binop a l).Grouped opVal ↔ NoReturn (binop :: l.map Prod.fst) := by
  induction l generalizing lhs binop a with
  | nil => exact ⟨fun _ => trivial, fun _ => ⟨hl, trivial, hle, nofun⟩⟩
  | cons x l ih =>
    obtain ⟨op, b⟩ := x
    rw [build, List.map_cons, NoReturn]
    split_ifs with hop
    · have hr : (build (.leaf a) op b l).Grouped opVal ↔ NoReturn (op :: l.map Prod.fst) :=
        ih (OpTree.grouped_leaf opVal a) nofun b
      rw [OpTree.grouped_node_iff, hr, ops_build]
      constructor
      · exact fun h => ⟨fun _ => h.2.2.2, h.2.1⟩
      · intro h
        exact ⟨hl, h.2, (hl.forall_ops_iff fun m n hmn hm => le_trans hm hmn).mp hle, h.1 hop⟩
    · have hn : (OpTree.node binop lhs (.leaf a)).Grouped opVal := ⟨hl, trivial, hle, nofun⟩
      rw [ih hn (fun o ho => by rw [← Option.some.inj ho]; exact not_lt.mp hop) b]
      exact ⟨fun h => ⟨fun h' => absurd h' hop, h⟩, fun h => h.2⟩

/-! The parser -/

lemma nextOp_of_stops (h : Stops c.tokens) : nextOp haveRegex c = (some none, c) := by
  rw [nextOp]
  exact (if_neg h.1).trans ((if_neg h.2.1).trans (congrArg (fun o => (some o, c)) h.2.2))

lemma ne_of_simpleOp {token : Token} {op : BinOp} (h : simpleOp token = some op) :
    token ≠ bang ∧ token ≠ tilde := by
  have hbang : simpleOp bang = none := by decide
  have htilde : simpleOp tilde = none := by decide
  constructor <;> rintro rfl
  · cases hbang.symm.trans h
  · cases htilde.symm.trans h

lemma nextOp_of_opTokens {op : BinOp} {opToks more : List Token} (h : OpTokens op opToks)
    (hc : c.tokens = opToks ++ more) : (∃ c', nextOp haveRegex c = (none, c')) ∨
      ∃ c', nextOp haveRegex c = (some (some op), c') ∧ c'.skip.tokens = more := by
  obtain ⟨tokens, lose, warnings⟩ := c
  obtain rfl : tokens = opToks ++ more := hc
  cases h with
  | notEqual => exact .inr ⟨_, rfl, rfl⟩
  | regexMatch =>
    cases haveRegex
    exacts [.inl ⟨_, rfl⟩, .inr ⟨_, rfl, rfl⟩]
  | iregexMatch =>
    cases haveRegex
    exacts [.inl ⟨_, rfl⟩, .inr ⟨_, rfl, rfl⟩]
  | @simple _ token h =>
    obtain ⟨h1, h2⟩ := ne_of_simpleOp h
    refine .inr ⟨⟨token :: more, lose, warnings⟩, ?_, rfl⟩
    rw [nextOp]
    exact (if_neg h1).trans ((if_neg h2).trans (congrArg (fun o => (some o, _)) h))

lemma combine_cases (rhs : OpTree BinOp α) (c : Cfile) :
    (∃ c', combine context lhs binop rhs c = (none, c')) ∨
      combine context lhs binop rhs c = (some (.node binop lhs rhs), c) := by
  rw [combine]
  split
  exacts [.inl ⟨_, rfl⟩, .inr rfl]

/-- The parser ends, and what it accepts is this tree, read up to these tokens. -/
def Builds (result : Option (Option (OpTree BinOp α) × Cfile)) (t : OpTree BinOp α)
    (left : List Token) : Prop :=
  ∃ r, result = some r ∧ ∀ t', r.1 = some t' → t' = t ∧ r.2.tokens = left

lemma builds_none {t : OpTree BinOp α} : Builds (some (none, c)) t left :=
  ⟨_, rfl, nofun⟩

lemma builds_combine {lhs rhs : OpTree BinOp α} {binop : BinOp} (hc : c.tokens = left) :
    Builds (some (combine context lhs binop rhs c)) (.node binop lhs rhs) left := by
  obtain ⟨c', h⟩ | h := combine_cases context lhs binop rhs c
  · rw [h]
    exact builds_none
  · rw [h]
    exact ⟨_, rfl, fun t' ht => ⟨(Option.some.inj ht).symm, hc⟩⟩

variable {nonBinary context}

lemma builds_pending (hstop : Stops left) {fuel : ℕ} {ctx : Context} {lhs : OpTree BinOp α}
    {binop : BinOp} {a : α} {l : List (BinOp × α)} (hfuel : l.length < fuel)
    (h : Spells nonBinary context left ctx (some binop) a l c.tokens) :
    Builds (parseExpression haveRegex nonBinary context fuel ctx (some (lhs, binop)) c)
      (build lhs binop a l) left := by
  induction l generalizing fuel ctx lhs binop a c with
  | nil =>
    obtain ⟨fuel, rfl⟩ := Nat.exists_eq_add_of_lt hfuel
    obtain ⟨c1, h1, rfl⟩ := h c rfl
    rw [parseExpression, h1]
    simp only [nextOp_of_stops haveRegex hstop]
    exact builds_combine context rfl
  | cons x l ih =>
    obtain ⟨op, b⟩ := x
    obtain ⟨fuel, rfl⟩ : ∃ n, fuel = n + 1 := ⟨fuel - 1, by omega⟩
    obtain ⟨opToks, more, hop, hread, hmore⟩ := h
    obtain ⟨c1, h1, hc1⟩ := hread c rfl
    have hlen : l.length < fuel := by simpa using hfuel
    rw [parseExpression, h1]
    obtain ⟨c2, h2⟩ | ⟨c2, h2, rfl⟩ := nextOp_of_opTokens haveRegex hop hc1
    · simp only [h2]
      exact builds_none
    simp only [h2, build]
    have hprec : opPrecedence binop op < 0 ↔ opVal binop < opVal op := by
      rw [opPrecedence]
      omega
    by_cases hlt : opVal binop < opVal op
    · -- the recursive call takes all that is left
      rw [nextContext, if_pos hlt] at hmore
      rw [if_pos (hprec.mpr hlt), if_pos hlt]
      have hrec : Builds (parseExpression haveRegex nonBinary context fuel (opContext op)
        (some (.leaf a, op)) c2.skip) (build (.leaf a) op b l) left := ih hlen hmore
      obtain ⟨⟨t, c3⟩, hr, hok⟩ := hrec
      rw [hr]
      cases t with
      | none => exact builds_none
      | some t =>
        obtain ⟨rfl, hleft⟩ := hok t rfl
        exact builds_combine context hleft
    · rw [nextContext, if_neg hlt] at hmore
      rw [if_neg (mt hprec.mp hlt), if_neg hlt]
      obtain ⟨c', hn⟩ | hs := combine_cases context lhs binop (.leaf a) c2
      · simp only [hn]
        exact builds_none
      · simp only [hs]
        exact ih hlen hmore

def buildAll (a : α) : List (BinOp × α) → OpTree BinOp α
  | [] => .leaf a
  | (op, b) :: l => build (.leaf a) op b l

lemma builds_all (hstop : Stops left) {fuel : ℕ} {ctx : Context} {a : α} {l : List (BinOp × α)}
    (hfuel : l.length < fuel) (h : Spells nonBinary context left ctx none a l c.tokens) :
    Builds (parseExpression haveRegex nonBinary context fuel ctx none c) (buildAll a l) left := by
  obtain ⟨fuel, rfl⟩ : ∃ n, fuel = n + 1 := ⟨fuel - 1, by omega⟩
  cases l with
  | nil =>
    obtain ⟨c1, h1, rfl⟩ := h c rfl
    rw [parseExpression, h1]
    simp only [nextOp_of_stops haveRegex hstop]
    exact ⟨_, rfl, fun t ht => ⟨(Option.some.inj ht).symm, rfl⟩⟩
  | cons x l =>
    obtain ⟨opToks, more, hop, hread, hmore⟩ := h
    obtain ⟨c1, h1, hc1⟩ := hread c rfl
    rw [parseExpression, h1]
    obtain ⟨c2, h2⟩ | ⟨c2, h2, rfl⟩ := nextOp_of_opTokens haveRegex hop hc1
    · simp only [h2]
      exact builds_none
    · simp only [h2]
      exact builds_pending haveRegex hstop (by simpa using hfuel) hmore

lemma buildAll_eq_treeOf_iff (a : α) (l : List (BinOp × α)) :
    buildAll a l = OpTree.treeOf opVal a l ↔ NoReturn (l.map Prod.fst) := by
  cases l with
  | nil => exact ⟨fun _ => trivial, fun _ => rfl⟩
  | cons x l =>
    obtain ⟨op, b⟩ := x
    have hf : (buildAll a ((op, b) :: l)).first = a := first_build ..
    have hr : (buildAll a ((op, b) :: l)).rest = (op, b) :: l := rest_build ..
    rw [OpTree.eq_treeOf_iff hf hr]
    exact grouped_build_iff (OpTree.grouped_leaf opVal a) nofun b l

/-- The numbers among the operands: `parse_non_binary` takes one by itself where the context is
numeric. -/
def constInt (ctx : Context) (c : Cfile) : Option Bytes × Cfile :=
  match c.tokens with
  | .number val :: _ =>
    if ctx = .numeric ∨ ctx = .dataOrNumeric then (some val, c.skip) else (none, c)
  | _ => (none, c)

lemma reads_constInt (val : Bytes) (left : List Token) :
    Reads constInt .numeric (.number val :: left) val left := by
  intro c hc
  refine ⟨c.skip, ?_, congrArg List.tail hc⟩
  rw [constInt, hc]
  rfl

/-- **Precedence**: of a sequence of operands the parser makes the tree that the operator values
determine exactly when no operator with a tighter one behind it is followed by one that binds no
tighter: the call for the tighter operator does not come back for it. -/
theorem parseExpression_eq_treeOf_iff {left : List Token} (hstop : Stops left) {fuel : ℕ}
    {ctx : Context} {a : α} {l : List (BinOp × α)} {c : Cfile} (hfuel : l.length < fuel)
    (h : Spells nonBinary context left ctx none a l c.tokens) :
    ∃ r, parseExpression haveRegex nonBinary context fuel ctx none c = some r ∧
      ∀ t, r.1 = some t → r.2.tokens = left ∧
        (t = OpTree.treeOf opVal a l ↔ NoReturn (l.map Prod.fst)) := by
  obtain ⟨r, hr, hok⟩ := builds_all haveRegex hstop hfuel h
  refine ⟨r, hr, fun t ht => ?_⟩
  obtain ⟨rfl, hleft⟩ := hok t ht
  exact ⟨hleft, buildAll_eq_treeOf_iff a l⟩

end Parser

/-- `1 * 2 + 3 & 4 ;` -/
theorem parseExpression_eq_treeOf_sample :
    ∃ r, parseExpression true constInt (fun _ => .numeric) 4 .numeric none
      { tokens := [.number [49], .char 42, .number [50], .char 43, .number [51], .char 38,
        .number [52], semi] } = some r ∧
      ∀ t, r.1 = some t → r.2.tokens = [semi] ∧
        (t = OpTree.treeOf opVal [49] [(.multiply, [50]), (.add, [51]), (.binaryAnd, [52])] ↔
          NoReturn [.multiply, .add, .binaryAnd]) :=
  parseExpression_eq_treeOf_iff true (by decide) (by decide)
    ⟨[.char 42], _, .simple rfl, reads_constInt [49] _,
      [.char 43], _, .simple rfl, reads_constInt [50] _,
      [.char 38], _, .simple rfl, reads_constInt [51] _, reads_constInt [52] _⟩

/-- Of `8 / 1 + 1 / 2 ;` the parser makes `8 / ((1 + 1) / 2)`, while the operator values determine
`(8 / (1 + 1)) / 2`. -/
theorem parseExpression_does_not_return :
    parseExpression true constInt (fun _ => .numeric) 4 .numeric none
        { tokens := [.number [56], .char 47, .number [49], .char 43, .number [49], .char 47,
          .number [50], semi] } =
      some (some (.node .divide (.leaf [56])
        (.node .divide (.node .add (.leaf [49]) (.leaf [49])) (.leaf [50]))),
          { tokens := [semi] }) ∧
    OpTree.treeOf opVal [56] [(.divide, [49]), (.add, [49]), (.divide, [50])] =
      .node .divide (.node .divide (.leaf [56]) (.node .add (.leaf [49]) (.leaf [49])))
        (.leaf [50]) := by
  decide +kernel

end IscDhcp.Expression
