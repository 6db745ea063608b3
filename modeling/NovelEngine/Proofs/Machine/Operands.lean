import NovelEngine.Proofs.Machine.Calls

/-!
# Operands

Reading an operand passes over its bytes and evaluates it. So a turn that has read some operands stands behind their
bytes, and all that it has changed is the variables that the operands write.
-/
namespace NovelEngine

variable {σ α β : Type}

namespace Expr

def stores : Expr → Bool
  | leaf _ => false
  | store _ _ => true
  | unary _ e => e.stores
  | binary _ a b => a.stores || b.stores

def scopeAfter (es : List Expr) (scope : Scope) : Scope := es.foldl (fun scope e => (e.denote scope).2) scope

theorem scopeAfter_append (es others : List Expr) (scope : Scope) :
    scopeAfter (es ++ others) scope = scopeAfter others (scopeAfter es scope) := List.foldl_append

theorem denote_of_not_stores (e : Expr) (h : e.stores = false) (scope : Scope) : (e.denote scope).2 = scope := by
  induction e generalizing scope with
  | leaf l => rfl
  | store p e => cases h
  | unary op e ih => exact ih h scope
  | binary op a b iha ihb =>
    obtain ⟨ha, hb⟩ := Bool.or_eq_false_iff.mp h
    show (b.denote (a.denote scope).2).2 = scope
    rw [iha ha, ihb hb]

theorem scopeAfter_of_not_stores {es : List Expr} (h : ∀ e ∈ es, e.stores = false) (scope : Scope) :
    scopeAfter es scope = scope := by
  induction es with
  | nil => rfl
  | cons e es ih =>
    show scopeAfter es (e.denote scope).2 = scope
    rw [e.denote_of_not_stores (h e List.mem_cons_self), ih fun e' he' => h e' (List.mem_cons_of_mem _ he')]

theorem denote_keeps (e : Expr) (scope : Scope) :
    (e.denote scope).2.result = scope.result ∧ (e.denote scope).2.globals.flagWords = scope.globals.flagWords := by
  induction e generalizing scope with
  | leaf l => exact ⟨rfl, rfl⟩
  | store p e ih => cases p <;> exact ih scope
  | unary op e ih => exact ih scope
  | binary op a b iha ihb =>
    obtain ⟨hresult, hflags⟩ := ihb (a.denote scope).2
    exact ⟨hresult.trans (iha scope).1, hflags.trans (iha scope).2⟩

theorem scopeAfter_keeps (es : List Expr) (scope : Scope) :
    (scopeAfter es scope).result = scope.result ∧
      (scopeAfter es scope).globals.flagWords = scope.globals.flagWords := by
  induction es generalizing scope with
  | nil => exact ⟨rfl, rfl⟩
  | cons e es ih =>
    obtain ⟨hresult, hflags⟩ := ih (e.denote scope).2
    exact ⟨hresult.trans (e.denote_keeps scope).1, hflags.trans (e.denote_keeps scope).2⟩

end Expr

theorem Thread.cursorAt_of_passes {t : Thread} {pos : Nat} {chunk : Bytes} {c : Cursor}
    (h : (t.cursorAt pos).Passes chunk c) : c = t.cursorAt c.pos := by
  have hrest : t.script.codeFrom pos = chunk ++ c.rest := h.rest_eq
  have hpos : c.pos = pos + chunk.length := h.pos_eq
  have hsize : c.size = t.script.codeEnd := h.size_eq
  rw [Script.codeFrom_eq_drop] at hrest
  have hdrop : c.rest = t.script.codeFrom c.pos := by
    rw [Script.codeFrom_eq_drop, hpos, ← List.drop_drop, hrest, List.drop_left]
  obtain ⟨rest, p, size⟩ := c
  simp_all [cursorAt]

/-- The turn has read these bytes, and all it has done is to evaluate these operands. -/
structure Turn.Passes (t : Turn σ) (operands : List Expr) (chunk : Bytes) (t' : Turn σ) : Prop where
  passes : (t.thread.cursorAt t.pc).Passes chunk (t.thread.cursorAt t'.pc)
  turn_eq : t' = t.moved t'.pc (Expr.scopeAfter operands t.scope)

namespace Turn.Passes

variable {t t' t'' : Turn σ} {operands others : List Expr} {chunk more : Bytes}

theorem script_eq (h : t.Passes operands chunk t') : t'.thread.script = t.thread.script := by
  rw [h.turn_eq]
  rfl

theorem calls_eq (h : t.Passes operands chunk t') : t'.thread.calls = t.thread.calls := by
  rw [h.turn_eq]
  rfl

theorem refl (t : Turn σ) : t.Passes [] [] t := ⟨.refl _, rfl⟩

theorem trans (h : t.Passes operands chunk t') (h' : t'.Passes others more t'') :
    t.Passes (operands ++ others) (chunk ++ more) t'' := by
  -- The later operands see the variables as the earlier ones have left them.
  have hscope : t'.scope = Expr.scopeAfter operands t.scope := by
    have hresult : t.scope.result = (Expr.scopeAfter operands t.scope).result :=
      (Expr.scopeAfter_keeps operands t.scope).1.symm
    rw [h.turn_eq]
    exact congrArg (Scope.mk _ _) hresult
  have hcursor (pos : Nat) : t'.thread.cursorAt pos = t.thread.cursorAt pos := by
    rw [h.turn_eq]
    rfl
  have hpasses := h'.passes
  rw [hcursor, hcursor] at hpasses
  refine ⟨h.passes.append hpasses, ?_⟩
  calc t''
      _ = t'.moved t''.pc (Expr.scopeAfter others t'.scope) := h'.turn_eq
      _ = (t.moved t'.pc (Expr.scopeAfter operands t.scope)).moved t''.pc
            (Expr.scopeAfter others (Expr.scopeAfter operands t.scope)) := by rw [hscope, ← h.turn_eq]
      _ = t.moved t''.pc (Expr.scopeAfter (operands ++ others) t.scope) := by
            rw [Expr.scopeAfter_append]
            rfl

end Turn.Passes

namespace Exec

variable {x : Exec σ α} {f : α → Exec σ β} {t t' : Turn σ}

theorem result_bind_of_ok {a : α} (h : x.result t = (.ok a, t')) : (x >>= f).result t = (f a).result t' := by
  rw [result_bind, h]

theorem exists_of_bind {b : β} (h : (x >>= f).result t = (.ok b, t')) :
    ∃ a t₁, x.result t = (.ok a, t₁) ∧ (f a).result t₁ = (.ok b, t') := by
  rw [result_bind] at h
  cases hx : x.result t with
  | mk r t₁ =>
    rw [hx] at h
    cases r with
    | error e => cases h
    | ok a => exact ⟨a, t₁, rfl, h⟩

theorem exists_of_cursor {r : Except Defect (α × Cursor)} {a : α}
    (h : (checked r >>= fun p => setPc p.2.pos >>= fun _ => pure p.1).result t = (.ok a, t')) :
    ∃ c, r = .ok (a, c) ∧ t' = { t with pc := c.pos } := by
  rw [result_bind, result_checked] at h
  cases r with
  | error d => cases h
  | ok p =>
    cases h
    exact ⟨p.2, rfl, rfl⟩

theorem passes_of_cursor {r : Except Defect (α × Cursor)} {a : α} {chunk : Bytes}
    (h : (checked r >>= fun p => setPc p.2.pos >>= fun _ => pure p.1).result t = (.ok a, t'))
    (hr : ∀ c, r = .ok (a, c) → (t.thread.cursorAt t.pc).Passes chunk c) : t.Passes [] chunk t' := by
  obtain ⟨c, hc, rfl⟩ := exists_of_cursor h
  have hpasses := hr c hc
  rw [Thread.cursorAt_of_passes hpasses] at hpasses
  exact ⟨hpasses, rfl⟩

/-- An expression that is read has been written in the script, and it writes what its tree denotes. -/
theorem exists_denote_of_expr {value : Int32} (h : expr.result t = (.ok value, t')) :
    ∃ e : Expr, t.Passes [e] (e.encode ++ [0]) t' ∧ value = (e.denote t.scope).1 := by
  let r := evaluate (t.thread.cursorAt t.pc) t.scope
  have hrun : expr.result t = (checked r.1 >>= fun p => setPc p.2.pos >>= fun _ => pure p.1 : Exec σ Int32).result
      (t.moved t.pc r.2) := rfl
  rw [hrun] at h
  obtain ⟨c, hc, rfl⟩ := exists_of_cursor h
  obtain ⟨e, hpasses, hdenote⟩ := exists_denote_of_evaluate hc
  rw [Thread.cursorAt_of_passes hpasses] at hpasses
  refine ⟨e, ⟨hpasses, ?_⟩, (congrArg Prod.fst hdenote).symm⟩
  show _ = t.moved c.pos (e.denote t.scope).2
  rw [hdenote]
  rfl

theorem passes_expr {value : Int32} (h : expr.result t = (.ok value, t')) :
    ∃ e : Expr, t.Passes [e] (e.encode ++ [0]) t' := by
  obtain ⟨e, hpasses, -⟩ := exists_denote_of_expr h
  exact ⟨e, hpasses⟩

theorem passes_readU8 {byte : UInt8} (h : readU8.result t = (.ok byte, t')) : t.Passes [] [byte] t' :=
  passes_of_cursor (r := (t.thread.cursorAt t.pc).u8) h fun _ hc => Cursor.u8_ok_iff.mp hc

theorem passes_readU16 {number : UInt16} (h : readU16.result t = (.ok number, t')) :
    t.Passes [] (toLittleEndian 2 number.toNat) t' := by
  refine passes_of_cursor (r := (t.thread.cursorAt t.pc).u16) h fun c hc => ?_
  obtain ⟨n, hn, rfl, hpasses⟩ := Cursor.number_ok_iff.mp hc
  rwa [UInt16.toNat_ofNat_of_lt' hn]

theorem passes_operands {count : Nat} {values : List Int32}
    (h : (Instruction.operands count).result t = (.ok values, t')) :
    ∃ es : List Expr, es.length = count ∧ t.Passes es (es.flatMap fun e => e.encode ++ [0]) t' := by
  induction count generalizing t values with
  | zero =>
    cases h
    exact ⟨[], rfl, .refl _⟩
  | succ count ih =>
    obtain ⟨value, t₁, hexpr, hrest⟩ := exists_of_bind h
    obtain ⟨more, t₂, hmore, hpure⟩ := exists_of_bind hrest
    cases hpure
    obtain ⟨e, hfirst⟩ := passes_expr hexpr
    obtain ⟨es, hlength, hothers⟩ := ih hmore
    exact ⟨e :: es, congrArg Nat.succ hlength, hfirst.trans hothers⟩

/-- The position behind what has been read, or the one of the number that comes next. -/
theorem returnPosition_cases {target : Nat} (h : returnPosition.result t = (.ok target, t')) :
    t.world.shared.options.useReturnIds = false ∧ target = t.pc ∧ t' = t ∨
      t.world.shared.options.useReturnIds = true ∧ ∃ number : UInt16, readU16.result t = (.ok number, t') ∧
        t.thread.script.returnAddress number = .ok target := by
  rw [result_returnPosition] at h
  split at h
  · rename_i hids
    obtain ⟨number, t₁, hnumber, hrest⟩ := exists_of_bind h
    have hscript := (passes_readU16 hnumber).script_eq
    replace hrest : (checked (t₁.thread.script.returnAddress number) : Exec σ Nat).result t₁ = (.ok target, t') := hrest
    rw [result_checked, hscript] at hrest
    cases haddress : t.thread.script.returnAddress number with
    | error d =>
      rw [haddress] at hrest
      cases hrest
    | ok pos =>
      rw [haddress] at hrest
      cases hrest
      exact .inr ⟨hids, number, hnumber, haddress⟩
  · rename_i hids
    cases h
    exact .inl ⟨Bool.eq_false_iff.mpr hids, rfl, rfl⟩

end Exec
end NovelEngine
