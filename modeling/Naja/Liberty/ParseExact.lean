import Naja.Liberty.BooleanTree

/-! The parser accepts exactly the expressions of the grammar, with their value.
Soundness keeps for every stack the derivations of its nodes; completeness runs the
parser along a derivation, and every level ends with one node on an open stack. -/

namespace Naja.Liberty

/-! ### The grammar -/

/-- The expressions of a level, with their value: primaries, `!` and `'` first, then `^`, then the conjunctions,
then the disjunctions. A binary operator has its own level on the left. -/
inductive Derives : Level → List Token → (Assignment → Bool) → Prop where
  | primary (i : Input) : Derives .unary [.node .unary (.input i)] (fun σ => i.getValue σ)
  | paren {w v} : Derives .or w v → Derives .unary (.symbol .openParen :: (w ++ [.symbol .closeParen])) v
  | bang {w v} : Derives .unary w v → Derives .unary (.symbol .bang :: w) (fun σ => !v σ)
  | quote {w v} : Derives .unary w v → Derives .unary (w ++ [.symbol .quote]) (fun σ => !v σ)
  | unary {w v} : Derives .unary w v → Derives .xor w v
  | caret {w v w' v'} : Derives .xor w v → Derives .unary w' v' →
      Derives .xor (w ++ .symbol .caret :: w') (fun σ => v σ ^^ v' σ)
  | xor {w v} : Derives .xor w v → Derives .and w v
  | star {w v w' v'} : Derives .and w v → Derives .xor w' v' →
      Derives .and (w ++ .symbol .star :: w') (fun σ => v σ && v' σ)
  | ampersand {w v w' v'} : Derives .and w v → Derives .xor w' v' →
      Derives .and (w ++ .symbol .ampersand :: w') (fun σ => v σ && v' σ)
  | beside {w v w' v'} : Derives .and w v → Derives .xor w' v' → Derives .and (w ++ w') (fun σ => v σ && v' σ)
  | and {w v} : Derives .and w v → Derives .or w v
  | plus {w v w' v'} : Derives .or w v → Derives .and w' v' →
      Derives .or (w ++ .symbol .plus :: w') (fun σ => v σ || v' σ)
  | bar {w v w' v'} : Derives .or w v → Derives .and w' v' →
      Derives .or (w ++ .symbol .bar :: w') (fun σ => v σ || v' σ)

/-! ### All reductions -/

theorem weight_reduce (stack lighter : List Token) (next : Token) (reduced : reduce stack next = some lighter) :
    weight lighter < weight stack := by
  revert reduced
  fun_cases reduce stack next <;> intro reduced <;> cases reduced <;> simp [weight] <;> omega

theorem reduceLoop_none (next : Token) (turns : Nat) (stack : List Token) (done : reduce stack next = none) :
    reduceLoop next turns stack = stack := by
  cases turns with
  | zero => rfl
  | succ turns =>
      unfold reduceLoop
      rw [done]

/-- Turns beyond the weight change nothing. -/
theorem reduceLoop_enough (next : Token) (turns : Nat) (stack : List Token) (enough : weight stack ≤ turns) :
    reduceLoop next turns stack = reduceAll stack next := by
  induction turns using Nat.strong_induction_on generalizing stack with
  | _ turns ih =>
      cases reduced : reduce stack next with
      | none => rw [reduceAll, reduceLoop_none next turns stack reduced, reduceLoop_none next _ stack reduced]
      | some lighter =>
          have less := weight_reduce stack lighter next reduced
          obtain ⟨turns', rfl⟩ : ∃ n, turns = n + 1 := ⟨turns - 1, by omega⟩
          obtain ⟨heavy, heavy_eq⟩ : ∃ n, weight stack = n + 1 := ⟨weight stack - 1, by omega⟩
          have direct : reduceLoop next (turns' + 1) stack = reduceLoop next turns' lighter := by
            rw [reduceLoop, reduced]
          have weighed : reduceAll stack next = reduceLoop next heavy lighter := by
            rw [reduceAll, heavy_eq, reduceLoop, reduced]
          rw [direct, weighed, ih turns' (by omega) lighter (by omega)]
          by_cases same : heavy = turns'
          · rw [same, ih turns' (by omega) lighter (by omega)]
          · rw [ih heavy (by omega) lighter (by omega)]

theorem reduceAll_none {stack : List Token} {next : Token} (done : reduce stack next = none) :
    reduceAll stack next = stack :=
  reduceLoop_none next _ stack done

theorem reduceAll_some {stack lighter : List Token} {next : Token} (reduced : reduce stack next = some lighter) :
    reduceAll stack next = reduceAll lighter next := by
  have less := weight_reduce stack lighter next reduced
  calc
    reduceAll stack next = reduceLoop next (weight stack + 1) stack :=
      (reduceLoop_enough next _ stack (Nat.le_succ _)).symm
    _ = reduceLoop next (weight stack) lighter := by rw [reduceLoop, reduced]
    _ = reduceAll lighter next := reduceLoop_enough next _ lighter less.le

/-- No reduction is left: the turns are those of the loop of the source. -/
theorem reduce_reduceAll (stack : List Token) (next : Token) : reduce (reduceAll stack next) next = none := by
  induction h : weight stack using Nat.strong_induction_on generalizing stack with
  | _ n ih =>
      cases reduced : reduce stack next with
      | none => rw [reduceAll_none reduced, reduced]
      | some lighter =>
          rw [reduceAll_some reduced]
          exact ih (weight lighter) (h ▸ weight_reduce stack lighter next reduced) lighter rfl

/-- A property that every reduction keeps. -/
theorem reduceAll_keeps {P : List Token → Prop} (next : Token)
    (keeps : ∀ stack lighter, reduce stack next = some lighter → P stack → P lighter)
    (stack : List Token) (holds : P stack) : P (reduceAll stack next) := by
  unfold reduceAll
  generalize weight stack = turns
  induction turns generalizing stack with
  | zero => exact holds
  | succ turns ih =>
      unfold reduceLoop
      cases reduced : reduce stack next with
      | none => exact holds
      | some lighter => exact ih lighter (keeps stack lighter reduced holds)

/-! ### Soundness -/

theorem Derives.xor_append {w w' : List Token} {v v' : Assignment → Bool} (left : Derives .xor w v)
    (right : Derives .xor w' v') : Derives .xor (w ++ .symbol .caret :: w') (fun σ => v σ ^^ v' σ) := by
  generalize level : Level.xor = l at right
  induction right with
  | unary inner => exact .caret left inner
  | caret inner last ih =>
      have joined := Derives.caret (ih rfl) last
      simpa only [List.append_assoc, List.cons_append, Bool.xor_assoc] using joined
  | _ => cases level

theorem Derives.and_append (between : List Token)
    (join : ∀ {w w' : List Token} {v v' : Assignment → Bool}, Derives .and w v → Derives .xor w' v' →
      Derives .and (w ++ (between ++ w')) (fun σ => v σ && v' σ))
    {w w' : List Token} {v v' : Assignment → Bool} (left : Derives .and w v)
    (right : Derives .and w' v') : Derives .and (w ++ (between ++ w')) (fun σ => v σ && v' σ) := by
  generalize level : Level.and = l at right
  induction right with
  | xor inner => exact join left inner
  | star inner last ih =>
      have joined := Derives.star (ih rfl) last
      simpa only [List.append_assoc, List.cons_append, Bool.and_assoc] using joined
  | ampersand inner last ih =>
      have joined := Derives.ampersand (ih rfl) last
      simpa only [List.append_assoc, List.cons_append, Bool.and_assoc] using joined
  | beside inner last ih =>
      have joined := Derives.beside (ih rfl) last
      simpa only [List.append_assoc, List.cons_append, Bool.and_assoc] using joined
  | _ => cases level

theorem Derives.or_append (operator : Symbol)
    (join : ∀ {w w' : List Token} {v v' : Assignment → Bool}, Derives .or w v → Derives .and w' v' →
      Derives .or (w ++ .symbol operator :: w') (fun σ => v σ || v' σ))
    {w w' : List Token} {v v' : Assignment → Bool} (left : Derives .or w v)
    (right : Derives .or w' v') : Derives .or (w ++ .symbol operator :: w') (fun σ => v σ || v' σ) := by
  generalize level : Level.or = l at right
  induction right with
  | and inner => exact join left inner
  | plus inner last ih =>
      have joined := Derives.plus (ih rfl) last
      simpa only [List.append_assoc, List.cons_append, Bool.or_assoc] using joined
  | bar inner last ih =>
      have joined := Derives.bar (ih rfl) last
      simpa only [List.append_assoc, List.cons_append, Bool.or_assoc] using joined
  | _ => cases level

/-- The tokens a stack stands for: its symbols, and for its nodes expressions of their level and value. -/
inductive Yields : List Token → List Token → Prop where
  | nil : Yields [] []
  | symbol {stack w} (x : Symbol) : Yields stack w → Yields (.symbol x :: stack) (w ++ [.symbol x])
  | node {stack w w' v} (level : Level) (n : Node) : Yields stack w → Derives level w' v →
      (fun σ => n.getValue σ) = v → Yields (.node level n :: stack) (w ++ w')

theorem Yields.of_symbol {x : Symbol} {stack w : List Token} (yields : Yields (.symbol x :: stack) w) :
    ∃ w', w = w' ++ [.symbol x] ∧ Yields stack w' := by
  cases yields with
  | symbol _ below => exact ⟨_, rfl, below⟩

theorem Yields.of_node {level : Level} {n : Node} {stack w : List Token}
    (yields : Yields (.node level n :: stack) w) :
    ∃ below w', w = below ++ w' ∧ Yields stack below ∧ Derives level w' (fun σ => n.getValue σ) := by
  cases yields with
  | node _ _ below derived value =>
      subst value
      exact ⟨_, _, rfl, below, derived⟩

/-- An operator between two nodes. -/
theorem Yields.of_binary {level : Level} {a b : Node} {x : Symbol} {stack w : List Token}
    (yields : Yields (.node level b :: .symbol x :: .node level a :: stack) w) :
    ∃ below u u', w = below ++ (u ++ .symbol x :: u') ∧ Yields stack below ∧
      Derives level u (fun σ => a.getValue σ) ∧ Derives level u' (fun σ => b.getValue σ) := by
  obtain ⟨w₂, u', rfl, above, right⟩ := yields.of_node
  obtain ⟨w₁, rfl, under⟩ := above.of_symbol
  obtain ⟨w₀, u, rfl, base, left⟩ := under.of_node
  exact ⟨w₀, u, u', by simp, base, left, right⟩

/-- A node with an expression for it, over what the rest of the stack stands for. -/
theorem Yields.push {level : Level} {n : Node} {stack below w w' : List Token} {v : Assignment → Bool}
    (yields : Yields stack below) (derived : Derives level w' v) (value : (fun σ => n.getValue σ) = v)
    (same : below ++ w' = w) : Yields (.node level n :: stack) w := by
  subst same
  exact .node level n yields derived value

theorem reduce_yields (next : Token) (w : List Token) (stack lighter : List Token)
    (reduced : reduce stack next = some lighter) (yields : Yields stack w) : Yields lighter w := by
  revert reduced
  fun_cases reduce stack next with
  | case1 n rest =>
      intro reduced
      cases reduced
      obtain ⟨w₁, u, rfl, under, derived⟩ := yields.of_node
      obtain ⟨w₀, rfl, base⟩ := under.of_symbol
      exact base.push derived.bang rfl (by simp)
  | case2 n rest =>
      intro reduced
      cases reduced
      obtain ⟨w₁, rfl, under⟩ := yields.of_symbol
      obtain ⟨w₀, u, rfl, base, derived⟩ := under.of_node
      exact base.push derived.quote rfl (by simp)
  | case3 => exact nofun
  | case4 n rest =>
      intro reduced
      cases reduced
      obtain ⟨w₀, u, rfl, base, derived⟩ := yields.of_node
      exact base.push derived.unary rfl rfl
  | case5 b a rest =>
      intro reduced
      cases reduced
      obtain ⟨w₀, u', u, rfl, base, left, right⟩ := yields.of_binary
      exact base.push (left.xor_append right) rfl (by simp)
  | case6 => exact nofun
  | case7 n rest =>
      intro reduced
      cases reduced
      obtain ⟨w₀, u, rfl, base, derived⟩ := yields.of_node
      exact base.push derived.xor rfl rfl
  | case8 b a rest =>
      intro reduced
      cases reduced
      obtain ⟨w₁, u, rfl, under, right⟩ := yields.of_node
      obtain ⟨w₀, u', rfl, base, left⟩ := under.of_node
      exact base.push (Derives.and_append [] .beside left right) rfl (by simp)
  | case9 b a rest =>
      intro reduced
      cases reduced
      obtain ⟨w₀, u', u, rfl, base, left, right⟩ := yields.of_binary
      exact base.push (Derives.and_append [.symbol .star] .star left right) rfl (by simp)
  | case10 b a rest =>
      intro reduced
      cases reduced
      obtain ⟨w₀, u', u, rfl, base, left, right⟩ := yields.of_binary
      exact base.push (Derives.and_append [.symbol .ampersand] .ampersand left right) rfl (by simp)
  | case11 => exact nofun
  | case12 n rest =>
      intro reduced
      cases reduced
      obtain ⟨w₀, u, rfl, base, derived⟩ := yields.of_node
      exact base.push derived.and rfl rfl
  | case13 b a rest =>
      intro reduced
      cases reduced
      obtain ⟨w₀, u', u, rfl, base, left, right⟩ := yields.of_binary
      exact base.push (Derives.or_append .plus .plus left right) rfl (by simp)
  | case14 b a rest =>
      intro reduced
      cases reduced
      obtain ⟨w₀, u', u, rfl, base, left, right⟩ := yields.of_binary
      exact base.push (Derives.or_append .bar .bar left right) rfl (by simp)
  | case15 n rest =>
      intro reduced
      cases reduced
      obtain ⟨w₂, rfl, above⟩ := yields.of_symbol
      obtain ⟨w₁, u, rfl, under, inner⟩ := above.of_node
      obtain ⟨w₀, rfl, base⟩ := under.of_symbol
      exact base.push inner.paren rfl (by simp)
  | case16 => exact nofun

theorem shift_yields (stack w : List Token) (yields : Yields stack w) (next : Token)
    (read : (∃ x, next = .symbol x) ∨ ∃ i, next = .node .unary (.input i)) :
    Yields (shift stack next) (w ++ [next]) := by
  have kept := reduceAll_keeps (P := fun stack => Yields stack w) next (reduce_yields next w) stack yields
  rcases read with ⟨x, rfl⟩ | ⟨i, rfl⟩
  · exact .symbol x kept
  · exact .node .unary (.input i) kept (.primary i) rfl

theorem shifts_yields (tokens : List Token)
    (read : ∀ t ∈ tokens, (∃ x, t = .symbol x) ∨ ∃ i, t = .node .unary (.input i))
    (stack w : List Token) (yields : Yields stack w) : Yields (tokens.foldl shift stack) (w ++ tokens) := by
  induction tokens generalizing stack w with
  | nil => simpa using yields
  | cons next tokens ih =>
      have shifted := shift_yields stack w yields next (read next List.mem_cons_self)
      have whole := ih (fun t mem => read t (List.mem_cons_of_mem _ mem)) (shift stack next) (w ++ [next]) shifted
      simpa using whole

/-- One disjunction left at the end is an expression for all the tokens. -/
theorem derives_of_reduced (tokens : List Token)
    (read : ∀ t ∈ tokens, (∃ x, t = .symbol x) ∨ ∃ i, t = .node .unary (.input i)) (next : Token) (n : Node)
    (reduced : reduceAll (tokens.foldl shift []) next = [.node .or n]) :
    Derives .or tokens (fun σ => n.getValue σ) := by
  have shifted := shifts_yields tokens read [] [] .nil
  have kept := reduceAll_keeps (P := fun stack => Yields stack tokens) next (reduce_yields next tokens) _ shifted
  rw [reduced] at kept
  obtain ⟨w, w', same, base, derived⟩ := kept.of_node
  cases base
  rw [same]
  exact derived

/-! ### Completeness -/

/-- The symbols after which an expression of a level can start. -/
def Symbol.opens : Symbol → Level → Bool
  | .openParen, _ => true
  | .plus, level | .bar, level => level != .or
  | .star, level | .ampersand, level => level == .xor || level == .unary
  | .caret, level | .bang, level => level == .unary
  | _, _ => false

/-- The stacks an expression of a level can start on: the next operand of a juxtaposition follows the
conjunction before it. -/
inductive Open : Level → List Token → Prop where
  | bottom (level) : Open level []
  | symbol (level stack) (x : Symbol) : x.opens level = true → Open level (.symbol x :: stack)
  | beside (level) {stack} (n : Node) : level = .xor ∨ level = .unary → Open .and stack →
      Open level (.node .and n :: stack)

/-- What can start after a stack on one level can start there on the level before. -/
theorem Open.inner {stack : List Token} :
    (Open .or stack → Open .and stack) ∧ (Open .and stack → Open .xor stack) ∧
      (Open .xor stack → Open .unary stack) := by
  refine ⟨fun isOpen => ?_, fun isOpen => ?_, fun isOpen => ?_⟩
  all_goals
    cases isOpen with
    | bottom => exact .bottom _
    | symbol _ stack x opens => exact .symbol _ _ x (by revert opens; cases x <;> decide)
    | beside _ n level below => first
      | exact .beside _ n (.inl rfl) below
      | exact .beside _ n (.inr rfl) below
      | simp at level

/-- The look-aheads that end an expression of a level. -/
def Token.ends (next : Token) : Level → Prop
  | .unary => True
  | .xor => next ≠ .symbol .quote
  | .and => next ≠ .symbol .quote ∧ next ≠ .symbol .caret
  | .or => next ≠ .symbol .quote ∧ next ≠ .symbol .caret ∧ next.continuesAnd = false

/-- The first tokens of expressions. -/
def Token.starts : Token → Prop
  | .node .unary _ | .symbol .openParen | .symbol .bang => True
  | _ => False

theorem Token.starts_ends {next : Token} (starts : next.starts) : next.ends .and ∧ next.continuesAnd = true := by
  unfold Token.starts at starts
  split at starts
  · exact ⟨⟨nofun, nofun⟩, rfl⟩
  · exact ⟨⟨nofun, nofun⟩, rfl⟩
  · exact ⟨⟨nofun, nofun⟩, rfl⟩
  · exact starts.elim

theorem Derives.starts {level : Level} {w : List Token} {v : Assignment → Bool} (derived : Derives level w v) :
    ∃ next rest, w = next :: rest ∧ next.starts := by
  induction derived with
  | primary i => exact ⟨_, _, rfl, trivial⟩
  | paren => exact ⟨_, _, rfl, trivial⟩
  | bang => exact ⟨_, _, rfl, trivial⟩
  | unary _ ih => exact ih
  | xor _ ih => exact ih
  | and _ ih => exact ih
  | quote _ ih =>
      obtain ⟨next, rest, rfl, starts⟩ := ih
      exact ⟨next, _, rfl, starts⟩
  | caret _ _ ih _ | star _ _ ih _ | ampersand _ _ ih _ | beside _ _ ih _ | plus _ _ ih _ | bar _ _ ih _ =>
      obtain ⟨next, rest, rfl, starts⟩ := ih
      exact ⟨next, _, rfl, starts⟩

theorem reduce_open {stack : List Token} (isOpen : Open .unary stack) {next : Token} (starts : next.starts) :
    reduce stack next = none := by
  cases isOpen with
  | bottom => rfl
  | symbol _ stack x opens => cases x <;> first | rfl | cases opens
  | beside _ n _ below =>
      have goes : next.continuesAnd = true := (Token.starts_ends starts).2
      cases below with
      | bottom => exact if_pos goes
      | symbol _ stack x opens => cases x <;> first | exact if_pos goes | cases opens
      | beside _ n level => simp at level

theorem reduce_unary_open {stack : List Token} (isOpen : Open .xor stack) (n : Node) {next : Token}
    (ends : next.ends .xor) : reduce (.node .unary n :: stack) next = some (.node .xor n :: stack) := by
  cases isOpen with
  | bottom => exact if_neg ends
  | symbol _ stack x opens => cases x <;> first | exact if_neg ends | cases opens
  | beside _ n _ below => exact if_neg ends

theorem reduce_xor_open {stack : List Token} (isOpen : Open .xor stack) (n : Node) (next : Token) :
    reduce (.node .xor n :: stack) next =
      if next = .symbol .caret then none else some (.node .and n :: stack) := by
  cases isOpen with
  | bottom => rfl
  | symbol _ stack x opens => cases x <;> first | rfl | cases opens
  | beside _ n _ below => rfl

theorem reduce_and_open {stack : List Token} (isOpen : Open .and stack) (n : Node) (next : Token) :
    reduce (.node .and n :: stack) next = if next.continuesAnd then none else some (.node .or n :: stack) := by
  cases isOpen with
  | bottom => rfl
  | symbol _ stack x opens => cases x <;> first | rfl | cases opens
  | beside _ n level => simp at level

theorem reduce_or_open {stack : List Token} (isOpen : Open .or stack) (n : Node) (next : Token) :
    reduce (.node .or n :: stack) next = none := by
  cases isOpen with
  | bottom => rfl
  | symbol _ stack x opens => cases x <;> first | rfl | cases opens
  | beside _ n level => simp at level

/-- A negation after a node under negations is the same as one on the node. -/
theorem reduceAll_quote (stack : List Token) (n : Node) (next : Token) :
    reduceAll (.symbol .quote :: reduceAll (.node .unary n :: stack) (.symbol .quote)) next =
      reduceAll (.node .unary (.not n) :: stack) next := by
  induction stack generalizing n with
  | nil =>
      have kept : reduce [.node .unary n] (.symbol .quote) = none := rfl
      rw [reduceAll_none kept]
      exact reduceAll_some rfl
  | cons top rest ih =>
      by_cases negated : top = .symbol .bang
      · subst negated
        have negates (n : Node) (next : Token) : reduce (.node .unary n :: .symbol .bang :: rest) next =
            some (.node .unary (.not n) :: rest) := rfl
        rw [reduceAll_some (negates n _), ih, reduceAll_some (negates (.not n) _)]
      · have kept : reduce (.node .unary n :: top :: rest) (.symbol .quote) = none := by
          cases top with
          | symbol x => cases x <;> first | rfl | exact absurd rfl negated
          | node => rfl
        rw [reduceAll_none kept]
        exact reduceAll_some rfl

/-- Run on an open stack, an expression of a level ends as one node of the level with its value. -/
def Runs (level : Level) (w : List Token) (v : Assignment → Bool) : Prop :=
  ∀ stack, Open level stack → ∃ n : Node, (fun σ => n.getValue σ) = v ∧
    ∀ next : Token, next.ends level → reduceAll (w.foldl shift stack) next = reduceAll (.node level n :: stack) next

theorem shift_open {stack : List Token} (isOpen : Open .unary stack) (next : Token) (starts : next.starts) :
    shift stack next = next :: stack := by
  rw [shift, reduceAll_none (reduce_open isOpen starts)]

theorem Runs.paren {w : List Token} {v : Assignment → Bool} (inner : Runs .or w v) :
    Runs .unary (.symbol .openParen :: (w ++ [.symbol .closeParen])) v := by
  intro stack isOpen
  obtain ⟨n, value, run⟩ := inner (.symbol .openParen :: stack) (.symbol _ _ _ rfl)
  refine ⟨n, value, fun next _ => ?_⟩
  have inside : reduceAll (w.foldl shift (.symbol .openParen :: stack)) (.symbol .closeParen) =
      .node .or n :: .symbol .openParen :: stack := by
    rw [run (.symbol .closeParen) ⟨nofun, nofun, rfl⟩]
    exact reduceAll_none (reduce_or_open (.symbol _ _ _ rfl) n _)
  rw [List.foldl_cons, shift_open isOpen (.symbol .openParen) trivial, List.foldl_append, List.foldl_cons, List.foldl_nil, shift, inside]
  exact reduceAll_some rfl

theorem Runs.bang {w : List Token} {v : Assignment → Bool} (inner : Runs .unary w v) :
    Runs .unary (.symbol .bang :: w) (fun σ => !v σ) := by
  intro stack isOpen
  obtain ⟨n, value, run⟩ := inner (.symbol .bang :: stack) (.symbol _ _ _ rfl)
  subst value
  refine ⟨.not n, rfl, fun next ends => ?_⟩
  rw [List.foldl_cons, shift_open isOpen (.symbol .bang) trivial, run next ends]
  exact reduceAll_some rfl

theorem Runs.quote {w : List Token} {v : Assignment → Bool} (inner : Runs .unary w v) :
    Runs .unary (w ++ [.symbol .quote]) (fun σ => !v σ) := by
  intro stack isOpen
  obtain ⟨n, value, run⟩ := inner stack isOpen
  subst value
  refine ⟨.not n, rfl, fun next _ => ?_⟩
  rw [List.foldl_append, List.foldl_cons, List.foldl_nil, shift, run (.symbol .quote) trivial]
  exact reduceAll_quote stack n next

theorem Runs.unary {w : List Token} {v : Assignment → Bool} (inner : Runs .unary w v) : Runs .xor w v := by
  intro stack isOpen
  obtain ⟨n, value, run⟩ := inner stack (Open.inner.2.2 isOpen)
  refine ⟨n, value, fun next ends => ?_⟩
  rw [run next trivial]
  exact reduceAll_some (reduce_unary_open isOpen n ends)

theorem Runs.caret {w w' : List Token} {v v' : Assignment → Bool} (left : Runs .xor w v) (right : Runs .unary w' v') :
    Runs .xor (w ++ .symbol .caret :: w') (fun σ => v σ ^^ v' σ) := by
  intro stack isOpen
  obtain ⟨a, value, run⟩ := left stack isOpen
  obtain ⟨b, value', run'⟩ := right (.symbol .caret :: .node .xor a :: stack) (.symbol _ _ _ rfl)
  subst value value'
  refine ⟨.xor a b, rfl, fun next ends => ?_⟩
  have first : reduceAll (w.foldl shift stack) (.symbol .caret) = .node .xor a :: stack := by
    rw [run (.symbol .caret) nofun]
    exact reduceAll_none (by rw [reduce_xor_open isOpen, if_pos rfl])
  have second : reduce (.node .unary b :: .symbol .caret :: .node .xor a :: stack) next =
      some (.node .xor b :: .symbol .caret :: .node .xor a :: stack) := if_neg ends
  rw [List.foldl_append, List.foldl_cons, shift, first, run' next trivial, reduceAll_some second]
  exact reduceAll_some rfl

theorem Runs.xor {w : List Token} {v : Assignment → Bool} (inner : Runs .xor w v) : Runs .and w v := by
  intro stack isOpen
  obtain ⟨n, value, run⟩ := inner stack (Open.inner.2.1 isOpen)
  refine ⟨n, value, fun next ends => ?_⟩
  rw [run next ends.1]
  exact reduceAll_some (by rw [reduce_xor_open (Open.inner.2.1 isOpen), if_neg ends.2])

/-- A conjunction is kept while the look-ahead goes on with it. -/
theorem Runs.kept {w : List Token} {a : Node} {stack : List Token} (isOpen : Open .and stack)
    (run : ∀ next : Token, next.ends .and → reduceAll (w.foldl shift stack) next = reduceAll (.node .and a :: stack) next)
    (next : Token) (ends : next.ends .and) (goes : next.continuesAnd = true) :
    reduceAll (w.foldl shift stack) next = .node .and a :: stack := by
  rw [run next ends]
  exact reduceAll_none (by rw [reduce_and_open isOpen, if_pos goes])

theorem Runs.conjunction {w w' : List Token} {v v' : Assignment → Bool} (x : Symbol)
    (joins : x = .star ∨ x = .ampersand) (left : Runs .and w v) (right : Runs .xor w' v') :
    Runs .and (w ++ .symbol x :: w') (fun σ => v σ && v' σ) := by
  intro stack isOpen
  obtain ⟨a, value, run⟩ := left stack isOpen
  have after : Open .xor (.symbol x :: .node .and a :: stack) := .symbol _ _ x (by rcases joins with rfl | rfl <;> rfl)
  obtain ⟨b, value', run'⟩ := right _ after
  subst value value'
  refine ⟨.and a b, rfl, fun next ends => ?_⟩
  have first : reduceAll (w.foldl shift stack) (.symbol x) = .node .and a :: stack := by
    rcases joins with rfl | rfl <;> exact Runs.kept isOpen run _ ⟨nofun, nofun⟩ rfl
  have joined : reduce (.node .and b :: .symbol x :: .node .and a :: stack) next =
      some (.node .and (.and a b) :: stack) := by
    rcases joins with rfl | rfl <;> rfl
  rw [List.foldl_append, List.foldl_cons, shift, first, run' next ends.1,
    reduceAll_some (by rw [reduce_xor_open after, if_neg ends.2])]
  exact reduceAll_some joined

theorem Runs.beside {w w' : List Token} {v v' : Assignment → Bool} (left : Runs .and w v) (right : Runs .xor w' v')
    (starts : ∃ next rest, w' = next :: rest ∧ next.starts) : Runs .and (w ++ w') (fun σ => v σ && v' σ) := by
  intro stack isOpen
  obtain ⟨a, value, run⟩ := left stack isOpen
  have after : Open .xor (.node .and a :: stack) := .beside _ a (.inl rfl) isOpen
  obtain ⟨b, value', run'⟩ := right _ after
  subst value value'
  refine ⟨.and a b, rfl, fun next ends => ?_⟩
  obtain ⟨head, rest, rfl, start⟩ := starts
  have goes := Token.starts_ends start
  -- the first token of the operand finds the conjunction reduced, as on the stack of the operand
  have same : shift (w.foldl shift stack) head = shift (.node .and a :: stack) head := by
    rw [shift, Runs.kept isOpen run head goes.1 goes.2, shift_open (Open.inner.2.2 after) head start]
  rw [List.foldl_append, List.foldl_cons, same, ← List.foldl_cons, run' next ends.1,
    reduceAll_some (by rw [reduce_xor_open after, if_neg ends.2])]
  exact reduceAll_some rfl

theorem Runs.and {w : List Token} {v : Assignment → Bool} (inner : Runs .and w v) : Runs .or w v := by
  intro stack isOpen
  obtain ⟨n, value, run⟩ := inner stack (Open.inner.1 isOpen)
  refine ⟨n, value, fun next ends => ?_⟩
  rw [run next ⟨ends.1, ends.2.1⟩]
  exact reduceAll_some (by rw [reduce_and_open (Open.inner.1 isOpen), if_neg (by rw [ends.2.2]; exact Bool.false_ne_true)])

theorem Runs.disjunction {w w' : List Token} {v v' : Assignment → Bool} (x : Symbol) (joins : x = .plus ∨ x = .bar)
    (left : Runs .or w v) (right : Runs .and w' v') : Runs .or (w ++ .symbol x :: w') (fun σ => v σ || v' σ) := by
  intro stack isOpen
  obtain ⟨a, value, run⟩ := left stack isOpen
  have after : Open .and (.symbol x :: .node .or a :: stack) := .symbol _ _ x (by rcases joins with rfl | rfl <;> rfl)
  obtain ⟨b, value', run'⟩ := right _ after
  subst value value'
  refine ⟨.or a b, rfl, fun next ends => ?_⟩
  have first : reduceAll (w.foldl shift stack) (.symbol x) = .node .or a :: stack := by
    rw [run (.symbol x) (by rcases joins with rfl | rfl <;> exact ⟨nofun, nofun, rfl⟩)]
    exact reduceAll_none (reduce_or_open isOpen a _)
  have joined : reduce (.node .or b :: .symbol x :: .node .or a :: stack) next =
      some (.node .or (.or a b) :: stack) := by
    rcases joins with rfl | rfl <;> rfl
  rw [List.foldl_append, List.foldl_cons, shift, first, run' next ⟨ends.1, ends.2.1⟩,
    reduceAll_some (by rw [reduce_and_open after, if_neg (by rw [ends.2.2]; exact Bool.false_ne_true)])]
  exact reduceAll_some joined

/-- The parser runs along every derivation. -/
theorem Derives.runs {level : Level} {w : List Token} {v : Assignment → Bool} (derived : Derives level w v) :
    Runs level w v := by
  induction derived with
  | primary i =>
      intro stack isOpen
      refine ⟨.input i, rfl, fun next _ => ?_⟩
      rw [List.foldl_cons, List.foldl_nil, shift_open isOpen (.node .unary (.input i)) trivial]
  | paren _ ih => exact ih.paren
  | bang _ ih => exact ih.bang
  | quote _ ih => exact ih.quote
  | unary _ ih => exact ih.unary
  | caret _ _ left right => exact left.caret right
  | xor _ ih => exact ih.xor
  | star _ _ left right => exact left.conjunction .star (.inl rfl) right
  | ampersand _ _ left right => exact left.conjunction .ampersand (.inr rfl) right
  | beside _ second left right => exact left.beside right second.starts
  | and _ ih => exact ih.and
  | plus _ _ left right => exact left.disjunction .plus (.inl rfl) right
  | bar _ _ left right => exact left.disjunction .bar (.inr rfl) right

/-- At the end of an expression, one disjunction is left, with its value. -/
theorem Derives.reduced {tokens : List Token} {v : Assignment → Bool} (derived : Derives .or tokens v) :
    ∃ n : Node, (fun σ => n.getValue σ) = v ∧
      reduceAll (tokens.foldl shift []) (.symbol .stop) = [.node .or n] := by
  obtain ⟨n, value, run⟩ := derived.runs [] (.bottom _)
  refine ⟨n, value, ?_⟩
  rw [run (.symbol .stop) ⟨nofun, nofun, rfl⟩]
  exact reduceAll_none rfl

/-! ### Texts -/

theorem tokenize_read (names : Names) (pos : Nat) (rest : List Char) :
    ∀ tokens, tokenize names pos rest = .ok tokens →
      ∀ t ∈ tokens, (∃ x, t = .symbol x) ∨ ∃ i, t = .node .unary (.input i) := by
  fun_induction tokenize names pos rest with
  | case1 pos =>
      intro tokens same t mem
      cases same
      cases mem
  | case2 pos car others skip ih => exact ih
  | case3 pos car others skip symbol found ih =>
      intro tokens same t mem
      cases read : tokenize names (pos + 1) others with
      | error message => rw [read] at same; cases same
      | ok later =>
          rw [read] at same
          cases same
          rcases List.mem_cons.mp mem with rfl | mem
          · exact .inl ⟨symbol, rfl⟩
          · exact ih later read t mem
  | case4 pos car others skip found message failed => exact nofun
  | case5 pos car others skip found input parsed ih =>
      intro tokens same t mem
      cases read : tokenize names (pos + 1 + (others.takeWhile isIdentifierCharacter).length)
          (others.dropWhile isIdentifierCharacter) with
      | error message => rw [read] at same; cases same
      | ok later =>
          rw [read] at same
          cases same
          rcases List.mem_cons.mp mem with rfl | mem
          · exact .inr ⟨input, rfl⟩
          · exact ih later read t mem

theorem rootOf_getValue (n : Node) (σ : Assignment) : (rootOf n).getValue σ = n.getValue σ := by
  cases n <;> rfl

theorem parse_tokens (names : Names) (function : List Char) (tokens : List Token)
    (read : tokenize names 0 function = .ok tokens) :
    parse names function = finish function (tokens.foldl shift []) := by
  unfold parse
  rw [parseLoop_eq, read]
  rfl

/-- What `finish` accepts is one disjunction. -/
theorem finish_ok (function : List Char) (stack : List Token) (root : Node) (ok : finish function stack = .ok root) :
    ∃ n, reduceAll stack (.symbol .stop) = [.node .or n] ∧ root = rootOf n := by
  revert ok
  unfold finish
  split
  · next n reduced =>
      intro ok
      cases ok
      exact ⟨n, reduced, rfl⟩
  · exact nofun

theorem finish_error (function : List Char) (stack : List Token) (failed : ¬ ∃ root, finish function stack = .ok root) :
    ∃ message, finish function stack = .error message := by
  cases result : finish function stack with
  | error message => exact ⟨message, rfl⟩
  | ok root => exact absurd ⟨root, result⟩ failed

/-- A text of tokens is parsed exactly when it is an expression, into a tree of its value; on every other
text the parser fails. -/
theorem parse_exact (names : Names) (function : List Char) :
    match tokenize names 0 function with
    | .error message => parse names function = .error message
    | .ok tokens =>
        (∀ value, Derives .or tokens value ↔
          ∃ root, parse names function = .ok root ∧ (fun σ => root.getValue σ) = value) ∧
        ((¬ ∃ value, Derives .or tokens value) → ∃ message, parse names function = .error message) := by
  cases read : tokenize names 0 function with
  | error message =>
      change parse names function = .error message
      unfold parse
      rw [parseLoop_eq, read]
      rfl
  | ok tokens =>
      have sound : ∀ root, parse names function = .ok root → Derives .or tokens (fun σ => root.getValue σ) := by
        intro root ok
        rw [parse_tokens names function tokens read] at ok
        obtain ⟨n, reduced, rfl⟩ := finish_ok function _ root ok
        have derived := derives_of_reduced tokens (tokenize_read names 0 function tokens read) _ n reduced
        simpa only [rootOf_getValue] using derived
      refine ⟨fun value => ⟨fun derived => ?_, fun ⟨root, ok, same⟩ => same ▸ sound root ok⟩, fun none => ?_⟩
      · obtain ⟨n, same, reduced⟩ := derived.reduced
        refine ⟨rootOf n, ?_, ?_⟩
        · rw [parse_tokens names function tokens read, finish, reduced]
        · rw [← same]
          funext σ
          exact rootOf_getValue n σ
      · rw [parse_tokens names function tokens read]
        apply finish_error
        intro ⟨root, ok⟩
        exact none ⟨_, sound root (by rw [parse_tokens names function tokens read, ok])⟩

end Naja.Liberty
