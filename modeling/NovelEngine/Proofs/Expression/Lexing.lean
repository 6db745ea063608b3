import NovelEngine.Proofs.Expression.Tree

/-!
# Tokens and their bytes

Reading a token is the inverse of writing a symbol: it succeeds exactly on the bytes of a symbol and leaves
what follows them. So no symbol's bytes begin with those of another one, and at most one tree stands at a
place.
-/
namespace NovelEngine

theorem toLittleEndian_inj {width m n : Nat} (h : toLittleEndian width m = toLittleEndian width n)
    (hm : m < byteSpan width) (hn : n < byteSpan width) : m = n := by
  have hval := congrArg littleEndian h
  rwa [littleEndian_toLittleEndian, littleEndian_toLittleEndian, Nat.mod_eq_of_lt hm,
    Nat.mod_eq_of_lt hn] at hval

theorem toLittleEndian_one (byte : UInt8) : toLittleEndian 1 byte.toNat = [byte] := by
  rw [toLittleEndian, toLittleEndian, UInt8.ofNat_toNat]

namespace Cursor

/-- The second cursor stands behind these bytes, which the first one stands in front of. -/
structure Passes (c : Cursor) (chunk : Bytes) (c' : Cursor) : Prop where
  rest_eq : c.rest = chunk ++ c'.rest
  pos_eq : c'.pos = c.pos + chunk.length
  size_eq : c'.size = c.size

variable {c c' c'' : Cursor} {xs ys : Bytes}

theorem Passes.refl (c : Cursor) : c.Passes [] c := ⟨rfl, rfl, rfl⟩

theorem Passes.append (h : c.Passes xs c') (h' : c'.Passes ys c'') : c.Passes (xs ++ ys) c'' where
  rest_eq := by rw [h.rest_eq, h'.rest_eq, List.append_assoc]
  pos_eq := by rw [h'.pos_eq, h.pos_eq, List.length_append, Nat.add_assoc]
  size_eq := h'.size_eq.trans h.size_eq

theorem passes_append_iff : c.Passes (xs ++ ys) c'' ↔ ∃ c', c.Passes xs c' ∧ c'.Passes ys c'' := by
  constructor
  · intro h
    refine ⟨⟨ys ++ c''.rest, c.pos + xs.length, c.size⟩, ⟨?_, rfl, rfl⟩, ⟨rfl, ?_, h.size_eq⟩⟩
    · rw [h.rest_eq, List.append_assoc]
    · rw [h.pos_eq, List.length_append, Nat.add_assoc]
  · rintro ⟨c', h, h'⟩
    exact h.append h'

theorem passes_ofBytes_iff {bytes : Bytes} {start : Nat} :
    (ofBytes bytes start).Passes xs c' ↔
      xs <+: bytes.drop start ∧ c' = ofBytes bytes (start + xs.length) := by
  obtain ⟨rest, pos, size⟩ := c'
  have hdrop : ∀ r, bytes.drop start = xs ++ r → bytes.drop (start + xs.length) = r := by
    intro r hr
    rw [← List.drop_drop, hr, List.drop_left]
  constructor
  · rintro ⟨hrest, hpos, hsize⟩
    have hrest : bytes.drop start = xs ++ rest := hrest
    have hpos : pos = start + xs.length := hpos
    have hsize : size = bytes.length := hsize
    refine ⟨⟨rest, hrest.symm⟩, ?_⟩
    rw [hpos, hsize, ofBytes, hdrop rest hrest]
  · rintro ⟨⟨r, hr⟩, heq⟩
    simp only [ofBytes, Cursor.mk.injEq] at heq
    obtain ⟨rfl, rfl, rfl⟩ := heq
    refine ⟨?_, rfl, rfl⟩
    show bytes.drop start = xs ++ bytes.drop (start + xs.length)
    rw [hdrop r hr.symm, hr]

theorem number_ok_iff {α : Type} {width : Nat} {f : Nat → α} {value : α} :
    c.number width f = .ok (value, c') ↔
      ∃ n, n < byteSpan width ∧ f n = value ∧ c.Passes (toLittleEndian width n) c' := by
  constructor
  · intro h
    cases hr : c.read width with
    | error e =>
      rw [number, hr] at h
      cases h
    | ok r =>
      obtain ⟨chunk, rest⟩ := r
      rw [number, hr] at h
      cases h
      obtain ⟨hlen, hrest, hpos, hsize⟩ := read_ok_iff.mp hr
      have hback := toLittleEndian_littleEndian chunk
      have hlt := littleEndian_lt chunk
      rw [hlen] at hback hlt
      refine ⟨littleEndian chunk, hlt, rfl, ?_⟩
      rw [hback]
      exact ⟨hrest, by rw [hpos, hlen], hsize⟩
  · rintro ⟨n, hn, rfl, hrest, hpos, hsize⟩
    rw [length_toLittleEndian] at hpos
    have hr : c.read width = .ok (toLittleEndian width n, c') :=
      read_ok_iff.mpr ⟨length_toLittleEndian width n, hrest, hpos, hsize⟩
    rw [number, hr]
    show Except.ok (f (littleEndian (toLittleEndian width n)), c') = .ok (f n, c')
    rw [littleEndian_toLittleEndian, Nat.mod_eq_of_lt hn]

theorem u8_ok_iff {byte : UInt8} : c.u8 = .ok (byte, c') ↔ c.Passes [byte] c' := by
  rw [u8, number_ok_iff]
  constructor
  · rintro ⟨n, -, rfl, h⟩
    exact h
  · intro h
    refine ⟨byte.toNat, byte.toNat_lt, UInt8.ofNat_toNat, ?_⟩
    rwa [toLittleEndian_one]

end Cursor

theorem UnaryOp.ofCode?_eq_some_iff {byte : UInt8} {op : UnaryOp} :
    ofCode? byte = some op ↔ op.code = byte := by
  constructor
  · intro h
    unfold ofCode? at h
    split at h <;> cases h <;> rfl
  · rintro rfl
    cases op <;> rfl

theorem BinaryOp.ofCode?_eq_some_iff {byte : UInt8} {op : BinaryOp} :
    ofCode? byte = some op ↔ op.code = byte := by
  constructor
  · intro h
    unfold ofCode? at h
    split at h <;> cases h <;> rfl
  · rintro rfl
    cases op <;> rfl

namespace Token

variable {c c' : Cursor} {byte : UInt8} {t : Token}

theorem add_ofNat_sub (h : 0x80 ≤ byte) : 0x80 + UInt8.ofNat (byte.toNat - 0x80) = byte := by
  have hle : 0x80 ≤ byte.toNat := UInt8.le_iff_toNat_le.mp h
  have hlt := byte.toNat_lt
  rw [← UInt8.toNat_inj, UInt8.toNat_add]
  simp only [UInt8.toNat_ofNat, UInt8.toNat_ofNat']
  omega

theorem ofByte?_small (value : Fin 128) :
    ofByte? (0x80 + UInt8.ofNat value.val) = some (.push (Int32.ofNat value.val)) := by
  have hle : (0x80 : UInt8) ≤ 0x80 + UInt8.ofNat value.val := by decide +revert
  have hlow : ((0x80 : UInt8) + UInt8.ofNat value.val).toNat - 0x80 = value.val := by decide +revert
  rw [ofByte?, if_pos hle, hlow]

theorem ofByte?_eq_some_iff : ofByte? byte = some t ↔ ∃ s : Symbol, s.encode = [byte] ∧ s.token = t := by
  constructor
  · intro h
    unfold ofByte? at h
    split at h
    · rename_i hle
      have hlt := byte.toNat_lt
      refine ⟨.leaf (.small ⟨byte.toNat - 0x80, by omega⟩), ?_, Option.some.inj h⟩
      exact congrArg (fun b => [b]) (add_ofNat_sub hle)
    · split at h
      · rename_i heq
        exact ⟨.leaf .result, by rw [heq]; rfl, Option.some.inj h⟩
      · cases hu : UnaryOp.ofCode? byte with
        | some op =>
          rw [hu] at h
          rw [← UnaryOp.ofCode?_eq_some_iff.mp hu]
          exact ⟨.unary op, rfl, Option.some.inj h⟩
        | none =>
          cases hb : BinaryOp.ofCode? byte with
          | some op =>
            rw [hu, hb] at h
            rw [← BinaryOp.ofCode?_eq_some_iff.mp hb]
            exact ⟨.binary op, rfl, Option.some.inj h⟩
          | none =>
            rw [hu, hb] at h
            cases h
  · rintro ⟨s, hs, rfl⟩
    cases s with
    | leaf l =>
      cases l with
      | small value =>
        rw [← List.singleton_inj.mp hs]
        exact ofByte?_small value
      | result =>
        rw [← List.singleton_inj.mp hs]
        rfl
      | _ => simp [Symbol.encode, Leaf.encode, toLittleEndian] at hs
    | store p => cases p <;> simp [Symbol.encode, Place.encode, toLittleEndian] at hs
    | unary op =>
      rw [← List.singleton_inj.mp hs]
      cases op <;> rfl
    | binary op =>
      rw [← List.singleton_inj.mp hs]
      cases op <;> rfl

theorem read_of_ofByte? (h : c.Passes [byte] c') (ht : ofByte? byte = some t) :
    read c = .ok (some t, c') := by
  rw [read, Cursor.u8_ok_iff.mpr h]
  dsimp only
  split
  case h_10 => rw [ht]
  all_goals cases ht

theorem number_of_passes {width n : Nat} (h : c.Passes (byte :: toLittleEndian width n) c')
    (hn : n < byteSpan width) :
    ∃ rest, c.u8 = .ok (byte, rest) ∧
      ∀ f : Nat → Option Token, rest.number width f = .ok (f n, c') := by
  obtain ⟨rest, hbyte, hrest⟩ :=
    Cursor.passes_append_iff.mp (show c.Passes ([byte] ++ toLittleEndian width n) c' from h)
  exact ⟨rest, Cursor.u8_ok_iff.mpr hbyte, fun f => Cursor.number_ok_iff.mpr ⟨n, hn, rfl, hrest⟩⟩

theorem read_some_iff :
    read c = .ok (some t, c') ↔ ∃ s : Symbol, s.token = t ∧ c.Passes s.encode c' := by
  constructor
  · intro h
    unfold read at h
    split at h
    · cases h
    · rename_i byte rest hb
      have hp := Cursor.u8_ok_iff.mp hb
      split at h
      · cases h
      · obtain ⟨n, hn, ht, hrest⟩ := Cursor.number_ok_iff.mp h
        refine ⟨.store (.work (UInt16.ofNat n)), Option.some.inj ht, ?_⟩
        rw [Symbol.encode, Place.encode, UInt16.toNat_ofNat_of_lt' hn]
        exact hp.append hrest
      · obtain ⟨n, hn, ht, hrest⟩ := Cursor.number_ok_iff.mp h
        exact ⟨.store (.localVar (UInt8.ofNat n)), Option.some.inj ht, hp.append hrest⟩
      · obtain ⟨n, hn, ht, hrest⟩ := Cursor.number_ok_iff.mp h
        refine ⟨.leaf (.work (UInt16.ofNat n)), Option.some.inj ht, ?_⟩
        rw [Symbol.encode, Leaf.encode, UInt16.toNat_ofNat_of_lt' hn]
        exact hp.append hrest
      · obtain ⟨n, hn, ht, hrest⟩ := Cursor.number_ok_iff.mp h
        exact ⟨.leaf (.localVar (UInt8.ofNat n)), Option.some.inj ht, hp.append hrest⟩
      · obtain ⟨n, hn, ht, hrest⟩ := Cursor.number_ok_iff.mp h
        refine ⟨.leaf (.flag (UInt16.ofNat n)), Option.some.inj ht, ?_⟩
        rw [Symbol.encode, Leaf.encode, UInt16.toNat_ofNat_of_lt' hn]
        exact hp.append hrest
      · obtain ⟨n, hn, ht, hrest⟩ := Cursor.number_ok_iff.mp h
        exact ⟨.leaf (.byte (Int8.ofNat n)), Option.some.inj ht, hp.append hrest⟩
      · obtain ⟨n, hn, ht, hrest⟩ := Cursor.number_ok_iff.mp h
        refine ⟨.leaf (.short (Int16.ofNat n)), Option.some.inj ht, ?_⟩
        have hback : (Int16.ofNat n).toUInt16.toNat = n := UInt16.toNat_ofNat_of_lt' hn
        rw [Symbol.encode, Leaf.encode, hback]
        exact hp.append hrest
      · obtain ⟨n, hn, ht, hrest⟩ := Cursor.number_ok_iff.mp h
        refine ⟨.leaf (.word (Int32.ofNat n)), Option.some.inj ht, ?_⟩
        have hback : (Int32.ofNat n).toUInt32.toNat = n := UInt32.toNat_ofNat_of_lt' hn
        rw [Symbol.encode, Leaf.encode, hback]
        exact hp.append hrest
      · split at h
        · rename_i ht
          cases h
          obtain ⟨s, hs, hst⟩ := ofByte?_eq_some_iff.mp ht
          exact ⟨s, hst, by rwa [hs]⟩
        · cases h
  · rintro ⟨s, rfl, h⟩
    cases s with
    | unary op => exact read_of_ofByte? h (ofByte?_eq_some_iff.mpr ⟨.unary op, rfl, rfl⟩)
    | binary op => exact read_of_ofByte? h (ofByte?_eq_some_iff.mpr ⟨.binary op, rfl, rfl⟩)
    | store p =>
      cases p with
      | work index =>
        obtain ⟨rest, hu, hnum⟩ := number_of_passes h index.toNat_lt
        simp only [read, hu, hnum, UInt16.ofNat_toNat, Symbol.token]
      | localVar index =>
        rw [Symbol.encode, Place.encode, ← toLittleEndian_one] at h
        obtain ⟨rest, hu, hnum⟩ := number_of_passes h index.toNat_lt
        simp only [read, hu, hnum, UInt8.ofNat_toNat, Symbol.token]
    | leaf l =>
      cases l with
      | small value =>
        exact read_of_ofByte? h (ofByte?_eq_some_iff.mpr ⟨.leaf (.small value), rfl, rfl⟩)
      | result => exact read_of_ofByte? h (ofByte?_eq_some_iff.mpr ⟨.leaf .result, rfl, rfl⟩)
      | byte value =>
        rw [Symbol.encode, Leaf.encode, ← toLittleEndian_one] at h
        obtain ⟨rest, hu, hnum⟩ := number_of_passes h value.toUInt8.toNat_lt
        have hback : Int8.ofNat value.toUInt8.toNat = value :=
          congrArg UInt8.toInt8 UInt8.ofNat_toNat
        simp only [read, hu, hnum, hback, Symbol.token]
      | short value =>
        obtain ⟨rest, hu, hnum⟩ := number_of_passes h value.toUInt16.toNat_lt
        have hback : Int16.ofNat value.toUInt16.toNat = value :=
          congrArg UInt16.toInt16 UInt16.ofNat_toNat
        simp only [read, hu, hnum, hback, Symbol.token]
      | word value =>
        obtain ⟨rest, hu, hnum⟩ := number_of_passes h value.toUInt32.toNat_lt
        have hback : Int32.ofNat value.toUInt32.toNat = value :=
          congrArg UInt32.toInt32 UInt32.ofNat_toNat
        simp only [read, hu, hnum, hback, Symbol.token]
      | work index =>
        obtain ⟨rest, hu, hnum⟩ := number_of_passes h index.toNat_lt
        simp only [read, hu, hnum, UInt16.ofNat_toNat, Symbol.token]
      | localVar index =>
        rw [Symbol.encode, Leaf.encode, ← toLittleEndian_one] at h
        obtain ⟨rest, hu, hnum⟩ := number_of_passes h index.toNat_lt
        simp only [read, hu, hnum, UInt8.ofNat_toNat, Symbol.token]
      | flag index =>
        obtain ⟨rest, hu, hnum⟩ := number_of_passes h index.toNat_lt
        simp only [read, hu, hnum, UInt16.ofNat_toNat, Symbol.token]

theorem read_none_iff : read c = .ok (none, c') ↔ c.Passes [0] c' := by
  constructor
  · intro h
    unfold read at h
    split at h
    · cases h
    · rename_i byte rest hb
      have hp := Cursor.u8_ok_iff.mp hb
      split at h
      case h_1 =>
        cases h
        exact hp
      case h_10 =>
        split at h
        · cases h
        · cases h
      all_goals
        obtain ⟨n, -, ht, -⟩ := Cursor.number_ok_iff.mp h
        cases ht
  · intro h
    rw [read, Cursor.u8_ok_iff.mpr h]
    rfl

end Token

namespace Leaf

theorem lead_small_ne (value : Fin 128) {byte : UInt8} (h : byte < 0x80) :
    0x80 + UInt8.ofNat value.val ≠ byte := by
  have hle : (0x80 : UInt8) ≤ 0x80 + UInt8.ofNat value.val := by decide +revert
  intro heq
  rw [heq] at hle
  exact UInt8.not_le.mpr h hle

theorem ne_lead_small (value : Fin 128) {byte : UInt8} (h : byte < 0x80) :
    byte ≠ 0x80 + UInt8.ofNat value.val :=
  (lead_small_ne value h).symm

theorem encode_injective {l l' : Leaf} (h : l.encode = l'.encode) : l = l' := by
  cases l <;> cases l' <;> simp [encode, lead_small_ne, ne_lead_small] at h ⊢
  case small.small m n =>
    have hval := congrArg UInt8.toNat h
    rw [UInt8.toNat_ofNat', UInt8.toNat_ofNat'] at hval
    exact Fin.ext (by omega)
  case byte.byte a b => exact congrArg UInt8.toInt8 h
  case short.short a b =>
    have hbits := toLittleEndian_inj h a.toUInt16.toNat_lt b.toUInt16.toNat_lt
    exact congrArg UInt16.toInt16 (UInt16.toNat_inj.mp hbits)
  case word.word a b =>
    have hbits := toLittleEndian_inj h a.toUInt32.toNat_lt b.toUInt32.toNat_lt
    exact congrArg UInt32.toInt32 (UInt32.toNat_inj.mp hbits)
  case work.work i j => exact UInt16.toNat_inj.mp (toLittleEndian_inj h i.toNat_lt j.toNat_lt)
  case localVar.localVar i j => exact h
  case flag.flag i j => exact UInt16.toNat_inj.mp (toLittleEndian_inj h i.toNat_lt j.toNat_lt)

end Leaf

theorem Place.encode_injective {p p' : Place} (h : p.encode = p'.encode) : p = p' := by
  cases p <;> cases p' <;> simp [encode] at h ⊢
  case work.work i j => exact UInt16.toNat_inj.mp (toLittleEndian_inj h i.toNat_lt j.toNat_lt)
  case localVar.localVar i j => exact h

theorem UnaryOp.code_injective {op op' : UnaryOp} (h : op.code = op'.code) : op = op' := by
  have hop := UnaryOp.ofCode?_eq_some_iff.mpr h
  rw [UnaryOp.ofCode?_eq_some_iff.mpr rfl] at hop
  exact (Option.some.inj hop).symm

theorem BinaryOp.code_injective {op op' : BinaryOp} (h : op.code = op'.code) : op = op' := by
  have hop := BinaryOp.ofCode?_eq_some_iff.mpr h
  rw [BinaryOp.ofCode?_eq_some_iff.mpr rfl] at hop
  exact (Option.some.inj hop).symm

namespace Symbol

theorem read_encode_append (s : Symbol) (r : Bytes) :
    Token.read ⟨s.encode ++ r, 0, 0⟩ = .ok (some s.token, ⟨r, 0 + s.encode.length, 0⟩) :=
  Token.read_some_iff.mpr ⟨s, rfl, rfl, rfl, rfl⟩

/-- Reading tells the kinds of symbols apart, except for the four forms of a number. -/
theorem token_eq_of_encode_append {s s' : Symbol} {r r' : Bytes} (h : s.encode ++ r = s'.encode ++ r') :
    s.token = s'.token ∧ r = r' := by
  have hread := read_encode_append s r
  rw [h, read_encode_append s' r'] at hread
  simp only [Except.ok.injEq, Prod.mk.injEq, Option.some.injEq, Cursor.mk.injEq] at hread
  exact ⟨hread.1.symm, hread.2.1.symm⟩

theorem encode_injective {s s' : Symbol} (h : s.encode = s'.encode) : s = s' := by
  have htoken := (token_eq_of_encode_append (congrArg (· ++ []) h)).1
  rcases s with l | p | op | op <;> rcases s' with l' | p' | op' | op'
  case leaf.leaf => exact congrArg leaf (Leaf.encode_injective h)
  case store.store => exact congrArg store (Place.encode_injective h)
  case unary.unary => exact congrArg unary (UnaryOp.code_injective (List.singleton_inj.mp h))
  case binary.binary => exact congrArg binary (BinaryOp.code_injective (List.singleton_inj.mp h))
  case leaf.store => cases l <;> cases p' <;> cases htoken
  case leaf.unary => cases l <;> cases htoken
  case leaf.binary => cases l <;> cases htoken
  case store.leaf => cases p <;> cases l' <;> cases htoken
  case store.unary => cases p <;> cases htoken
  case store.binary => cases p <;> cases htoken
  case unary.leaf => cases l' <;> cases htoken
  case unary.store => cases p' <;> cases htoken
  case unary.binary => cases htoken
  case binary.leaf => cases l' <;> cases htoken
  case binary.store => cases p' <;> cases htoken
  case binary.unary => cases htoken

theorem encode_append_inj {s s' : Symbol} {r r' : Bytes} (h : s.encode ++ r = s'.encode ++ r') :
    s = s' ∧ r = r' := by
  have hr := (token_eq_of_encode_append h).2
  rw [hr] at h
  exact ⟨encode_injective (List.append_cancel_right h), hr⟩

theorem encode_append_ne_zero (s : Symbol) (r r' : Bytes) : s.encode ++ r ≠ 0 :: r' := by
  intro h
  have hread := read_encode_append s r
  have hnone : Token.read ⟨0 :: r', 0, 0⟩ = .ok (none, ⟨r', 1, 0⟩) :=
    Token.read_none_iff.mpr ⟨rfl, rfl, rfl⟩
  rw [h, hnone] at hread
  cases hread

theorem flatMap_encode_inj {ss ss' : List Symbol} {r r' : Bytes}
    (h : ss.flatMap encode ++ 0 :: r = ss'.flatMap encode ++ 0 :: r') : ss = ss' := by
  induction ss generalizing ss' with
  | nil =>
    cases ss' with
    | nil => rfl
    | cons s' ss' =>
      rw [List.flatMap_cons, List.append_assoc] at h
      exact absurd h.symm (s'.encode_append_ne_zero _ _)
  | cons s ss ih =>
    rw [List.flatMap_cons, List.append_assoc] at h
    cases ss' with
    | nil => exact absurd h (s.encode_append_ne_zero _ _)
    | cons s' ss' =>
      rw [List.flatMap_cons, List.append_assoc] at h
      obtain ⟨hs, hrest⟩ := encode_append_inj h
      rw [hs, ih hrest]

end Symbol

/-- At most one tree stands at a place. -/
theorem Expr.encode_unique {e e' : Expr} {bytes : Bytes} (h : e.encode ++ [0] <+: bytes)
    (h' : e'.encode ++ [0] <+: bytes) : e = e' := by
  obtain ⟨r, hr⟩ := h
  obtain ⟨r', hr'⟩ := h'
  rw [← hr', List.append_assoc, List.append_assoc, ← e.flatMap_symbols, ← e'.flatMap_symbols] at hr
  exact Expr.symbols_injective (Symbol.flatMap_encode_inj hr)

end NovelEngine
