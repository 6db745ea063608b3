import NovelEngine.Proofs.Expression.Lexing

/-!
# Evaluation of expression trees

An evaluation succeeds exactly on the postfix form of a tree that needs at most 16 numbers, and gives what
the tree denotes.
-/
namespace NovelEngine

variable {offset : Nat} {stack stack' : List Int32} {scope scope' : Scope} {value : Int32}

theorem pushOperand_ok_iff : pushOperand offset value stack = .ok stack' ↔
    stack.length < expressionStackDepth ∧ stack' = value :: stack := by
  unfold pushOperand
  split
  · rename_i h
    simp only [Except.ok.injEq, h, true_and]
    exact eq_comm
  · rename_i h
    simp [h]

theorem Bank.place_of_lt {bank : Bank} {count n : Nat} (h : n < count) :
    bank.place count n = .ok ⟨n, h⟩ :=
  dif_pos h

theorem Bank.place_of_not_lt {bank : Bank} {count n : Nat} (h : ¬ n < count) :
    bank.place count n = .error (.variableOutOfRange bank n) :=
  dif_neg h

theorem setIfInBounds_of_lt {α : Type} {n i : Nat} (v : Vector α n) (a : α) (h : i < n) :
    v.setIfInBounds i a = v.set i a h := by
  rw [← Vector.toList_inj, Vector.toList_setIfInBounds, Vector.toList_set]

namespace Symbol

theorem apply_leaf (l : Leaf) (h : l.InRange) :
    (leaf l).token.apply offset stack scope = (pushOperand offset (l.value scope) stack, scope) := by
  cases l with
  | small value => rfl
  | byte value =>
    have hval : Int32.ofInt value.toInt = value.toInt32 := by
      rw [← Int8.toInt_toInt32, Int32.ofInt_toInt]
    rw [Leaf.value, hval]
    rfl
  | short value =>
    have hval : Int32.ofInt value.toInt = value.toInt32 := by
      rw [← Int16.toInt_toInt32, Int32.ofInt_toInt]
    rw [Leaf.value, hval]
    rfl
  | word value => rfl
  | result => rfl
  | work index =>
    have hi : index.toNat < workCount := h
    have hw : scope.globals.work index.toNat = .ok ((Leaf.work index).value scope) := by
      simp only [Globals.work, Bank.place_of_lt hi, Leaf.value, Vector.getElem?_eq_getElem hi,
        Except.map, Fin.getElem_fin, Option.getD_some]
    simp only [token, Token.apply, hw]
    rfl
  | localVar index =>
    have hi : index.toNat < localCount := h
    simp only [token, Token.apply, Bank.place_of_lt hi, Leaf.value, Vector.getElem?_eq_getElem hi]
    rfl
  | flag index =>
    have hi : index.toNat < flagCount := h
    have hf : scope.globals.flag index.toNat = .ok (scope.globals.flagAt ⟨index.toNat, hi⟩) := by
      simp only [Globals.flag, Bank.place_of_lt hi, Except.map]
    have hval : (Leaf.flag index).value scope = truth (scope.globals.flagAt ⟨index.toNat, hi⟩) := by
      simp only [Leaf.value, hf, truth, Except.ok.injEq]
    simp only [token, Token.apply, hf, hval]
    rfl

theorem apply_leaf_error (l : Leaf) (offset : Nat) (stack : List Int32) (scope : Scope)
    (h : ¬ l.InRange) :
    ∃ defect, (leaf l).token.apply offset stack scope = (.error defect, scope) := by
  cases l with
  | work index =>
    have hi : ¬ index.toNat < workCount := h
    refine ⟨.variableOutOfRange .work index.toNat, ?_⟩
    simp only [token, Token.apply, Globals.work, Bank.place_of_not_lt hi, Except.map]
    rfl
  | localVar index =>
    have hi : ¬ index.toNat < localCount := h
    refine ⟨.variableOutOfRange .locals index.toNat, ?_⟩
    simp only [token, Token.apply, Bank.place_of_not_lt hi]
    rfl
  | flag index =>
    have hi : ¬ index.toNat < flagCount := h
    refine ⟨.variableOutOfRange .flags index.toNat, ?_⟩
    simp only [token, Token.apply, Globals.flag, Bank.place_of_not_lt hi, Except.map]
    rfl
  | _ => exact absurd trivial h

theorem apply_leaf_iff (l : Leaf) :
    (leaf l).token.apply offset stack scope = (.ok stack', scope') ↔
      l.InRange ∧ stack.length < expressionStackDepth ∧ stack' = l.value scope :: stack ∧
        scope' = scope := by
  by_cases h : l.InRange
  · rw [apply_leaf l h, Prod.mk.injEq, pushOperand_ok_iff, and_assoc]
    simp only [h, true_and, eq_comm]
  · obtain ⟨defect, heq⟩ := apply_leaf_error l offset stack scope h
    simp only [heq, Prod.mk.injEq, reduceCtorEq, false_and, h]

theorem ok_eq_ok_iff :
    ((.ok stack, scope) : Except Defect (List Int32) × Scope) = (.ok stack', scope') ↔
      stack' = stack ∧ scope' = scope := by
  simp only [Prod.mk.injEq, Except.ok.injEq, eq_comm]

theorem write_work_of_lt {index : UInt16} (h : index.toNat < workCount) (a : Int32) :
    (Place.work index).write scope a =
      { scope with globals := scope.globals.putWork ⟨index.toNat, h⟩ a } := by
  rw [Place.write, Globals.putWork, ← setIfInBounds_of_lt]

theorem write_localVar_of_lt {index : UInt8} (h : index.toNat < localCount) (a : Int32) :
    (Place.localVar index).write scope a = { scope with locals := scope.locals.set index.toNat a h } := by
  rw [Place.write, ← setIfInBounds_of_lt]

theorem apply_store_iff (p : Place) :
    (store p).token.apply offset stack scope = (.ok stack', scope') ↔
      p.InRange ∧ ∃ a below, stack = a :: below ∧ stack' = a :: below ∧ scope' = p.write scope a := by
  have hcons (a : Int32) (below : List Int32) (h : p.InRange) :
      (store p).token.apply offset (a :: below) scope = (.ok (a :: below), p.write scope a) := by
    cases p with
    | work index =>
      have hi : index.toNat < workCount := h
      simp only [token, Token.apply, Bank.place_of_lt hi, write_work_of_lt hi]
    | localVar index =>
      have hi : index.toNat < localCount := h
      simp only [token, Token.apply, Bank.place_of_lt hi, write_localVar_of_lt hi]
  constructor
  · intro h
    have hrange : p.InRange := by
      by_contra hrange
      cases p with
      | work index =>
        have hi : ¬ index.toNat < workCount := hrange
        cases stack <;> simp [token, Token.apply, Bank.place_of_not_lt hi] at h
      | localVar index =>
        have hi : ¬ index.toNat < localCount := hrange
        simp [token, Token.apply, Bank.place_of_not_lt hi] at h
    cases stack with
    | nil =>
      cases p with
      | work index => simp [token, Token.apply] at h
      | localVar index =>
        have hi : index.toNat < localCount := hrange
        simp [token, Token.apply, Bank.place_of_lt hi] at h
    | cons a below =>
      rw [hcons a below hrange, ok_eq_ok_iff] at h
      exact ⟨hrange, a, below, rfl, h⟩
  · rintro ⟨hrange, a, below, rfl, rfl, rfl⟩
    exact hcons a below hrange

theorem apply_unary_iff (op : UnaryOp) :
    (unary op).token.apply offset stack scope = (.ok stack', scope') ↔
      ∃ a below, stack = a :: below ∧ stack' = Int32.ofInt (op.meaning a) :: below ∧
        scope' = scope := by
  constructor
  · intro h
    cases stack with
    | nil => simp [token, Token.apply] at h
    | cons a below =>
      simp only [token, Token.apply, op.apply_eq, ok_eq_ok_iff] at h
      exact ⟨a, below, rfl, h⟩
  · rintro ⟨a, below, rfl, rfl, rfl⟩
    simp only [token, Token.apply, op.apply_eq]

theorem apply_binary_iff (op : BinaryOp) :
    (binary op).token.apply offset stack scope = (.ok stack', scope') ↔
      ∃ b a below, stack = b :: a :: below ∧ stack' = Int32.ofInt (op.meaning a b) :: below ∧
        scope' = scope := by
  constructor
  · intro h
    rcases stack with _ | ⟨b, _ | ⟨a, below⟩⟩
    · simp [token, Token.apply] at h
    · simp [token, Token.apply] at h
    · simp only [token, Token.apply, op.apply_eq, ok_eq_ok_iff] at h
      exact ⟨b, a, below, rfl, h⟩
  · rintro ⟨b, a, below, rfl, rfl, rfl⟩
    simp only [token, Token.apply, op.apply_eq]

end Symbol

theorem evaluateFrom_of_symbol {s : Symbol} {c c' : Cursor} (h : c.Passes s.encode c')
    (happly : s.token.apply c.pos stack scope = (.ok stack', scope')) :
    evaluateFrom c stack scope = evaluateFrom c' stack' scope' := by
  have hread : Token.read c = .ok (some s.token, c') := Token.read_some_iff.mpr ⟨s, rfl, h⟩
  rw [evaluateFrom]
  split
  · rename_i heq
    rw [hread] at heq
    cases heq
  · rename_i heq
    rw [hread] at heq
    cases heq
  · rename_i heq
    rw [hread] at heq
    cases heq
    rw [happly]

theorem evaluateFrom_of_close {c c' : Cursor} (h : c.Passes [0] c') :
    evaluateFrom c [value] scope = (.ok (value, c'), scope) := by
  have hread : Token.read c = .ok (none, c') := Token.read_none_iff.mpr h
  rw [evaluateFrom]
  split
  · rename_i heq
    rw [hread] at heq
    cases heq
  · rename_i heq
    rw [hread] at heq
    cases heq
    rfl
  · rename_i heq
    rw [hread] at heq
    cases heq

theorem Expr.evaluateFrom_encode (e : Expr) (stack : List Int32) (scope : Scope) {c c' : Cursor}
    (h : c.Passes e.encode c') (hrange : e.InRange) (hneed : e.need + stack.length ≤ expressionStackDepth) :
    evaluateFrom c stack scope = evaluateFrom c' ((e.denote scope).1 :: stack) (e.denote scope).2 := by
  induction e generalizing c c' stack scope with
  | leaf l =>
    have hlt : stack.length < expressionStackDepth := by
      rw [Expr.need] at hneed
      omega
    exact evaluateFrom_of_symbol (s := .leaf l) h
      ((Symbol.apply_leaf_iff l).mpr ⟨hrange, hlt, rfl, rfl⟩)
  | store p e ih =>
    obtain ⟨c₁, he, hp⟩ := Cursor.passes_append_iff.mp h
    rw [ih _ _ he hrange.2 hneed]
    exact evaluateFrom_of_symbol (s := .store p) hp
      ((Symbol.apply_store_iff p).mpr ⟨hrange.1, _, _, rfl, rfl, rfl⟩)
  | unary op e ih =>
    obtain ⟨c₁, he, hop⟩ := Cursor.passes_append_iff.mp h
    rw [ih _ _ he hrange hneed]
    exact evaluateFrom_of_symbol (s := .unary op) hop
      ((Symbol.apply_unary_iff op).mpr ⟨_, _, rfl, rfl, rfl⟩)
  | binary op a b iha ihb =>
    obtain ⟨c₂, hab, hop⟩ := Cursor.passes_append_iff.mp h
    obtain ⟨c₁, ha, hb⟩ := Cursor.passes_append_iff.mp hab
    rw [Expr.need] at hneed
    rw [iha _ _ ha hrange.1 (by omega), ihb _ _ hb hrange.2 (by rw [List.length_cons]; omega)]
    exact evaluateFrom_of_symbol (s := .binary op) hop
      ((Symbol.apply_binary_iff op).mpr ⟨_, _, _, rfl, rfl, rfl⟩)

/-- The values of trees written one after another, the last one first, and the variables after all. -/
def Expr.denoteAll : List Expr → Scope → List Int32 × Scope
  | [], scope => ([], scope)
  | e :: es, scope =>
    let (values, scope) := denoteAll es scope
    let (value, scope) := e.denote scope
    (value :: values, scope)

def Expr.encodeAll : List Expr → Bytes
  | [] => []
  | e :: es => encodeAll es ++ e.encode

/-- There is room for each tree above the values of those before it. -/
def Expr.Fit : List Expr → Prop
  | [] => True
  | e :: es => e.need + es.length ≤ expressionStackDepth ∧ Fit es

/-- From a first cursor and scope on, the tokens so far have built these trees. -/
structure Built (c₀ : Cursor) (scope₀ : Scope) (es : List Expr) (c : Cursor) (stack : List Int32)
    (scope : Scope) : Prop where
  passes : c₀.Passes (Expr.encodeAll es) c
  inRange : ∀ e ∈ es, e.InRange
  fit : Expr.Fit es
  denote : Expr.denoteAll es scope₀ = (stack, scope)

theorem Expr.length_denoteAll (es : List Expr) (scope : Scope) :
    (denoteAll es scope).1.length = es.length := by
  induction es with
  | nil => rfl
  | cons e es ih => rw [denoteAll, List.length_cons, List.length_cons, ih]

namespace Built

variable {c₀ c c' : Cursor} {scope₀ : Scope} {es : List Expr} {t : Token}

theorem length_eq (h : Built c₀ scope₀ es c stack scope) : es.length = stack.length := by
  rw [← Expr.length_denoteAll es scope₀, h.denote]

theorem cons {e : Expr} (h : Built c₀ scope₀ es c stack scope) (hp : c.Passes e.encode c')
    (hrange : e.InRange) (hneed : e.need + stack.length ≤ expressionStackDepth)
    (hdenote : e.denote scope = (value, scope')) :
    Built c₀ scope₀ (e :: es) c' (value :: stack) scope' where
  passes := h.passes.append hp
  inRange := List.forall_mem_cons.mpr ⟨hrange, h.inRange⟩
  fit := ⟨by rw [h.length_eq]; exact hneed, h.fit⟩
  denote := by simp only [Expr.denoteAll, h.denote, hdenote]

theorem exists_of_cons (h : Built c₀ scope₀ es c (value :: stack) scope) :
    ∃ (e : Expr) (es' : List Expr) (c₁ : Cursor) (scope₁ : Scope),
      Built c₀ scope₀ es' c₁ stack scope₁ ∧ c₁.Passes e.encode c ∧ e.InRange ∧
      e.need + stack.length ≤ expressionStackDepth ∧ e.denote scope₁ = (value, scope) := by
  cases es with
  | nil => cases h.denote
  | cons e es' =>
    obtain ⟨c₁, hes, he⟩ := Cursor.passes_append_iff.mp h.passes
    obtain ⟨hrange, hranges⟩ := List.forall_mem_cons.mp h.inRange
    obtain ⟨hneed, hfit⟩ := h.fit
    have hdenote := h.denote
    simp only [Expr.denoteAll, Prod.mk.injEq, List.cons.injEq] at hdenote
    obtain ⟨⟨hvalue, hvalues⟩, hscope⟩ := hdenote
    have hes' : Built c₀ scope₀ es' c₁ stack (Expr.denoteAll es' scope₀).2 :=
      ⟨hes, hranges, hfit, Prod.ext hvalues rfl⟩
    refine ⟨e, es', c₁, _, hes', he, hrange, ?_, Prod.ext hvalue hscope⟩
    rw [← hes'.length_eq]
    exact hneed

/-- Every token adds a tree or puts a node on top of the last ones. -/
theorem step (h : Built c₀ scope₀ es c stack scope) (hread : Token.read c = .ok (some t, c'))
    (happly : t.apply c.pos stack scope = (.ok stack', scope')) :
    ∃ es', Built c₀ scope₀ es' c' stack' scope' := by
  obtain ⟨s, rfl, hp⟩ := Token.read_some_iff.mp hread
  cases s with
  | leaf l =>
    obtain ⟨hrange, hlt, rfl, rfl⟩ := (Symbol.apply_leaf_iff l).mp happly
    have hneed : (Expr.leaf l).need + stack.length ≤ expressionStackDepth := by
      rw [Expr.need]
      omega
    exact ⟨_, h.cons (e := .leaf l) hp hrange hneed rfl⟩
  | store p =>
    obtain ⟨hrange, a, below, rfl, rfl, rfl⟩ := (Symbol.apply_store_iff p).mp happly
    obtain ⟨e, es', c₁, scope₁, hes, he, hranges, hneed, hdenote⟩ := h.exists_of_cons
    exact ⟨_, hes.cons (e := .store p e) (he.append hp) ⟨hrange, hranges⟩ hneed
      (by rw [Expr.denote, hdenote])⟩
  | unary op =>
    obtain ⟨a, below, rfl, rfl, rfl⟩ := (Symbol.apply_unary_iff op).mp happly
    obtain ⟨e, es', c₁, scope₁, hes, he, hrange, hneed, hdenote⟩ := h.exists_of_cons
    exact ⟨_, hes.cons (e := .unary op e) (he.append hp) hrange hneed (by rw [Expr.denote, hdenote])⟩
  | binary op =>
    obtain ⟨b, a, below, rfl, rfl, rfl⟩ := (Symbol.apply_binary_iff op).mp happly
    obtain ⟨eb, es', c₁, scope₁, hes, hb, hrangeb, hneedb, hdenoteb⟩ := h.exists_of_cons
    obtain ⟨ea, es'', c₂, scope₂, hes', ha, hrangea, hneeda, hdenotea⟩ := hes.exists_of_cons
    rw [List.length_cons] at hneedb
    have hneed : (Expr.binary op ea eb).need + below.length ≤ expressionStackDepth := by
      rw [Expr.need]
      omega
    exact ⟨_, hes'.cons (e := .binary op ea eb) ((ha.append hb).append hp) ⟨hrangea, hrangeb⟩ hneed
      (by rw [Expr.denote, hdenotea]; simp only [hdenoteb])⟩

/-- A run that ends has built exactly one tree in front of the closing byte. -/
theorem exists_of_evaluateFrom (h : Built c₀ scope₀ es c stack scope)
    (heval : evaluateFrom c stack scope = (.ok (value, c'), scope')) :
    ∃ (e : Expr) (c₁ : Cursor), Built c₀ scope₀ [e] c₁ [value] scope' ∧ c₁.Passes [0] c' := by
  induction hn : c.rest.length using Nat.strongRecOn generalizing c stack scope es with
  | ind n ih =>
    rw [evaluateFrom] at heval
    split at heval
    · cases heval
    · rename_i hread
      have hclose := Token.read_none_iff.mp hread
      split at heval
      · cases heval
        obtain ⟨e, rfl⟩ := List.length_eq_one_iff.mp h.length_eq
        exact ⟨e, c, h, hclose⟩
      · cases heval
    · rename_i t c₂ hread
      have hlt : c₂.rest.length < n := by
        rw [← hn]
        exact Token.length_rest_of_read hread
      split at heval
      · cases heval
      · rename_i happly
        obtain ⟨es', h'⟩ := h.step hread happly
        exact ih c₂.rest.length hlt h' heval rfl

end Built

/-- An evaluation succeeds exactly on a tree whose variables exist and that fits on the stack, and then it
gives what the tree denotes. No other tree stands at the same place. -/
theorem evaluate_ok_iff (bytes : Bytes) (start : Nat) (scope : Scope) :
    (∀ value c' scope', evaluate (.ofBytes bytes start) scope = (.ok (value, c'), scope') ↔
      ∃ e : Expr, e.InRange ∧ e.need ≤ expressionStackDepth ∧ e.encode ++ [0] <+: bytes.drop start ∧
        e.denote scope = (value, scope') ∧ c' = .ofBytes bytes (start + e.encode.length + 1)) ∧
    ∀ e e' : Expr, e.encode ++ [0] <+: bytes.drop start → e'.encode ++ [0] <+: bytes.drop start →
      e = e' := by
  refine ⟨fun value c' scope' => ⟨fun h => ?_, ?_⟩, fun e e' => Expr.encode_unique⟩
  · have hstart : Built (.ofBytes bytes start) scope [] (.ofBytes bytes start) [] scope :=
      ⟨.refl _, by simp, trivial, rfl⟩
    obtain ⟨e, c₁, he, hclose⟩ := hstart.exists_of_evaluateFrom h
    obtain ⟨hbytes, hc'⟩ := Cursor.passes_ofBytes_iff.mp (he.passes.append hclose)
    have hdenote := he.denote
    simp only [Expr.denoteAll, Prod.mk.injEq, List.cons.injEq, and_true] at hdenote
    have hlen : start + (e.encode ++ [0]).length = start + e.encode.length + 1 := by
      rw [List.length_append, List.length_singleton, Nat.add_assoc]
    refine ⟨e, he.inRange e (List.mem_singleton_self e), he.fit.1, hbytes, ?_, ?_⟩
    · exact Prod.ext hdenote.1 hdenote.2
    · rw [← hlen]
      exact hc'
  · rintro ⟨e, hrange, hneed, hbytes, hdenote, rfl⟩
    have hp := Cursor.passes_ofBytes_iff.mpr ⟨hbytes, rfl⟩
    obtain ⟨c₁, he, hclose⟩ := Cursor.passes_append_iff.mp hp
    have hrun := e.evaluateFrom_encode [] scope he hrange hneed
    rw [evaluate, hrun, evaluateFrom_of_close hclose, hdenote, List.length_append,
      List.length_singleton, Nat.add_assoc]

/-- The local variable 2 is set to 7 - 9. -/
theorem evaluate_ok_iff_store :
    let bytes : Bytes := [0x87, 0x89, 0x02, 0x21, 0x02, 0x00]
    let scope : Scope := ⟨.empty, Vector.replicate localCount 0, 0⟩
    let tree : Expr := .store (.localVar 2) (.binary .sub (.leaf (.small 7)) (.leaf (.small 9)))
    evaluate (.ofBytes bytes 0) scope =
        (.ok (-2, .ofBytes bytes 6), { scope with locals := scope.locals.setIfInBounds 2 (-2) }) ∧
      ∀ e : Expr, e.encode ++ [0] <+: bytes → e = tree := by
  intro bytes scope tree
  have hrange : tree.InRange := ⟨by show 2 < 32; decide, trivial, trivial⟩
  have hbytes : tree.encode ++ [0] <+: bytes := by decide
  refine ⟨((evaluate_ok_iff bytes 0 scope).1 _ _ _).mpr ⟨tree, hrange, by decide, hbytes, ?_, rfl⟩, ?_⟩
  · rfl
  · exact fun e he => (evaluate_ok_iff bytes 0 scope).2 e tree he hbytes

end NovelEngine
