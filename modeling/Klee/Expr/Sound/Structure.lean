import Klee.Expr.Sound.Arith

/-! Soundness of `Not`, `Select`, `Concat`, `Extract` and the casts, and of `Read`. -/
namespace Klee

variable {s : Option Assignment} {e l r c t f : Expr} {m n w : Nat}

section Not

variable [ExprOptions]

theorem NotExpr.create_denotes {x : BitVec w} (h : Denotes s e w x) :
    Denotes s (NotExpr.create e) w (~~~ x) := by
  have hnot := h.not
  cases e with
  | constant k =>
    obtain ⟨a, rfl, ha⟩ := h.constant_inv
    exact (Denotes.constant h.width_pos).congr fun hs => by rw [ha hs]
  | _ => exact hnot

end Not

section Select

variable [ExprOptions]

/-- `c or f` when the true arm is the Boolean `true`, `!c and f` when it is `false`. -/
theorem selectConstTrue_denotes {a : BitVec 1} {x y : BitVec 1} {k : ConstantExpr}
    (hc : Denotes s c 1 a) (ht : Denotes s (.constant k) 1 x) (hf : Denotes s f 1 y) :
    Denotes s (if k.isTrue then OrExpr.create c f else AndExpr.create c.createIsZero f) 1
      (if a = 1#1 then x else y) := by
  obtain ⟨x', rfl, hx⟩ := ht.constant_inv
  split
  case isTrue h =>
    have hx1 : x' = 1#1 := (BitVec.ne_zero_iff_eq_one x').mp (by simpa [ConstantExpr.isTrue] using h)
    refine (OrExpr.create_denotes hc hf).congr fun hs => ?_
    rw [← hx hs, hx1]
    exact BitVec.or_eq_ite a y
  case isFalse h =>
    have hx0 : x' = 0#1 := by simpa [ConstantExpr.isTrue] using h
    refine (AndExpr.create_denotes (Expr.createIsZero_denotes hc) hf).congr fun hs => ?_
    rw [← hx hs, hx0]
    exact BitVec.isZero_and_eq_ite a y

theorem selectConstFalse_denotes {a : BitVec 1} {x y : BitVec 1} {k : ConstantExpr}
    (hc : Denotes s c 1 a) (ht : Denotes s t 1 x) (hf : Denotes s (.constant k) 1 y) :
    Denotes s (if k.isTrue then OrExpr.create c.createIsZero t else AndExpr.create c t) 1
      (if a = 1#1 then x else y) := by
  obtain ⟨y', rfl, hy⟩ := hf.constant_inv
  split
  case isTrue h =>
    have hy1 : y' = 1#1 := (BitVec.ne_zero_iff_eq_one y').mp (by simpa [ConstantExpr.isTrue] using h)
    refine (OrExpr.create_denotes (Expr.createIsZero_denotes hc) ht).congr fun hs => ?_
    rw [← hy hs, hy1]
    exact BitVec.isZero_or_eq_ite a x
  case isFalse h =>
    have hy0 : y' = 0#1 := by simpa [ConstantExpr.isTrue] using h
    refine (AndExpr.create_denotes hc ht).congr fun hs => ?_
    rw [← hy hs, hy0]
    exact BitVec.and_eq_ite a x

theorem SelectExpr.create_denotes {a : BitVec 1} {x y : BitVec w} (hc : Denotes s c 1 a)
    (ht : Denotes s t w x) (hf : Denotes s f w y) :
    Denotes s (SelectExpr.create c t f) w (if a = 1#1 then x else y) := by
  unfold SelectExpr.create
  split
  · obtain ⟨a', rfl, ha⟩ := hc.constant_inv
    split
    case isTrue h =>
      have ha1 : a' = 1#1 := (BitVec.ne_zero_iff_eq_one a').mp (by simpa [ConstantExpr.isTrue] using h)
      exact ht.congr fun hs => by rw [← ha hs, if_pos ha1]
    case isFalse h =>
      have ha0 : a' = 0#1 := by simpa [ConstantExpr.isTrue] using h
      exact hf.congr fun hs => by rw [← ha hs, ha0, if_neg (by decide)]
  · split
    case isTrue h =>
      subst h
      exact ht.congr fun hs => by rw [ht.unique hf hs, ite_self]
    case isFalse =>
      split
      case isTrue h1 =>
        obtain rfl : w = 1 := ht.width_eq.symm.trans h1
        split
        · exact selectConstTrue_denotes hc ht hf
        · exact selectConstFalse_denotes hc ht hf
        · exact hc.select ht hf
      case isFalse => exact hc.select ht hf

end Select

section ConcatExtract

/-- The body of `ExtractExpr::create` with its call of `ConcatExpr::create` in place. -/
theorem ExtractExpr.create_eq (expr : Expr) (off : Nat) (w : Nat) :
    ExtractExpr.create expr off w =
      if w = expr.width then expr
      else match expr with
        | .constant c => .constant (c.extract off w)
        | .concat l r =>
          if off ≥ r.width then ExtractExpr.create l (off - r.width) w
          else if off + w ≤ r.width then ExtractExpr.create r off w
          else ConcatExpr.create (ExtractExpr.create l 0 (w + off - r.width))
            (ExtractExpr.create r off (r.width - off))
        | e => .extract e off w := by
  rw [ExtractExpr.create, extractCreate.eq_def]
  split
  · rfl
  · cases expr with
    | concat l r =>
      simp only [ExtractExpr.create, ConcatExpr.create]
      split_ifs
      · rfl
      · rfl
      · split
        · rename_i hl hr
          rw [hl, hr]
        · rename_i hl hr
          split_ifs with hm
          · simp only [hl, hr, if_pos hm]
          · simp only [hl, hr, if_neg hm]
        · rename_i hc hx
          split
          · rename_i hl hr
            exact (hc _ _ hl hr).elim
          · rename_i hl hr
            exact (hx _ _ _ _ _ _ hl hr).elim
          · rfl
    | _ => rfl

theorem ExtractExpr.concats_create_le (expr : Expr) (off : Nat) (w : Nat) :
    (ExtractExpr.create expr off w).concats ≤ expr.concats := (extractCreate expr off w).2

variable [ExprOptions]

/-- `ConcatExpr::create`, given the extract that merging two contiguous ones asks for. -/
theorem concatCreate_denotes {x : BitVec m} {y : BitVec n} (hl : Denotes s l m x)
    (hr : Denotes s r n y)
    (ih : ∀ {e o v k} {z : BitVec k}, l = .extract e o v → Denotes s e k z →
      ∀ {off w : Nat}, 0 < w → off + w ≤ k →
        Denotes s (ExtractExpr.create e off w) w (z.extractLsb' off w)) :
    Denotes s (ConcatExpr.create l r) (m + n) (x ++ y) := by
  unfold ConcatExpr.create
  split
  · obtain ⟨a, rfl, ha⟩ := hl.constant_inv
    obtain ⟨b, rfl, hb⟩ := hr.constant_inv
    rw [ConstantExpr.concat, ← BitVec.setWidth_append_eq_shiftLeft_setWidth_or, BitVec.setWidth_eq]
    refine (Denotes.constant (Nat.add_pos_left hl.width_pos n)).congr fun hs => ?_
    rw [ha hs, hb hs]
  · rename_i e1 o1 w1 e2 o2 w2
    split
    case isTrue h =>
      obtain ⟨rfl, rfl⟩ := h
      obtain ⟨rfl, hle, z, hz, hx⟩ := hl.extract_inv
      obtain ⟨rfl, -, z', hz', hy⟩ := hr.extract_inv
      have hpos := Nat.add_pos_left hl.width_pos w2
      refine (ih rfl hz hpos (by omega)).congr fun hs => ?_
      rw [hx hs, hy hs, ← hz.unique hz' hs]
      exact (BitVec.extractLsb'_append_extractLsb'_eq_extractLsb' rfl).symm
    case isFalse => exact hl.concat hr
  · exact hl.concat hr

theorem ExtractExpr.create_denotes {x : BitVec m} {off : Nat} (h : Denotes s e m x) (hw : 0 < w)
    (ho : off + w ≤ m) : Denotes s (ExtractExpr.create e off w) w (x.extractLsb' off w) := by
  induction hn : e.concats using Nat.strong_induction_on generalizing e m off w with
  | _ k ih =>
  subst hn
  rw [ExtractExpr.create_eq]
  split
  case isTrue hwe =>
    obtain rfl : w = m := hwe.trans h.width_eq
    obtain rfl : off = 0 := by omega
    exact h.congr fun _ => by simp
  case isFalse hne =>
    split
    · obtain ⟨a, rfl, ha⟩ := h.constant_inv
      rw [ConstantExpr.extract, BitVec.setWidth_sshiftRight a ho]
      exact (Denotes.constant hw).congr fun hs => by rw [ha hs]
    · rename_i l r
      obtain ⟨rfl, a, b, hl, hr, hx⟩ := h.concat_inv
      have hlt : l.concats < (Expr.concat l r).concats := by simp only [Expr.concats]; omega
      have hrt : r.concats < (Expr.concat l r).concats := by simp only [Expr.concats]; omega
      split_ifs with hhigh hlow
      · refine (ih _ hlt hl hw (by omega) rfl).congr fun hs => ?_
        rw [hx hs, BitVec.setWidth_eq, BitVec.extractLsb'_append_eq_of_le hhigh]
      · refine (ih _ hrt hr hw hlow rfl).congr fun hs => ?_
        rw [hx hs, BitVec.setWidth_eq, BitVec.extractLsb'_append_eq_of_add_le hlow]
      · have hpl : 0 < w + off - r.width := by omega
        have hpr : 0 < r.width - off := by omega
        have hel : Denotes s (ExtractExpr.create l 0 _) _ _ := ih _ hlt hl hpl (by omega) rfl
        have her : Denotes s (ExtractExpr.create r off _) _ _ := ih _ hrt hr hpr (by omega) rfl
        refine ((concatCreate_denotes hel her fun he hz _ _ hpos hle => ?_).setWidth
          (by omega)).congr fun hs => ?_
        · have hle' := ExtractExpr.concats_create_le l 0 (w + off - r.width)
          rw [he, Expr.concats] at hle'
          exact ih _ (by omega) hz hpos hle rfl
        · rw [hx hs, BitVec.setWidth_eq]
          exact BitVec.extractLsb'_append_straddle a b (by omega) (by omega)
    · exact h.extract hw ho

theorem ConcatExpr.create_denotes {x : BitVec m} {y : BitVec n} (hl : Denotes s l m x)
    (hr : Denotes s r n y) : Denotes s (ConcatExpr.create l r) (m + n) (x ++ y) :=
  concatCreate_denotes hl hr fun _ hz _ _ hw ho => ExtractExpr.create_denotes hz hw ho

end ConcatExtract

section Cast

variable [ExprOptions]

/-- A cast to `w` bits keeps a value of that width and truncates a wider one. -/
theorem castCreate_denotes (k : CastKind) {op : ConstantExpr → Nat → ConstantExpr}
    (hop : ∀ (m : Nat) (a : BitVec m), op ⟨m, a⟩ w = ⟨w, k.denote a w⟩) {x : BitVec m}
    (h : Denotes s e m x) (hw : 0 < w) : Denotes s (castCreate k op e w) w (k.denote x w) := by
  have htrunc : w ≤ m → x.extractLsb' 0 w = k.denote x w := by
    intro hle
    rw [← BitVec.setWidth_eq_extractLsb' hle]
    cases k with
    | zext => rfl
    | sext => exact (BitVec.signExtend_eq_setWidth_of_le x hle).symm
  unfold castCreate
  rw [h.width_eq]
  split_ifs with heq hlt
  · subst heq
    refine h.congr fun _ => ?_
    rw [← htrunc le_rfl]
    simp
  · exact (ExtractExpr.create_denotes h hw (by omega)).congr fun _ => htrunc hlt.le
  · have hle : m ≤ w := by omega
    split
    · obtain ⟨a, rfl, ha⟩ := h.constant_inv
      rw [hop]
      exact (Denotes.constant hw).congr fun hs => by rw [ha hs]
    · exact h.cast k hle

theorem CastKind.create_denotes (k : CastKind) {x : BitVec m} (h : Denotes s e m x)
    (hw : 0 < w) : Denotes s (k.create e w) w (k.denote x w) := by
  cases k with
  | zext => exact castCreate_denotes .zext (fun _ _ => rfl) h hw
  | sext => exact castCreate_denotes .sext (fun _ _ => rfl) h hw

end Cast

section Read

variable [ExprOptions]

/-- The loop of `ReadExpr::create` keeps this: the updates skipped so far do not write the
index that is read. -/
theorem readRollback_denotes {root : Array} {head : UpdateNode} {index : Expr} {i : BitVec 32}
    {v : BitVec 8} (h : Denotes s (.read root head index) 8 v) (hi : Denotes s index 32 i)
    (un : UpdateNode) (hun : un.WellSorted)
    (hv : ∀ σ ∈ s, v = un.eval σ root i ∧ (constArrayOpt = true → un.ConstReadsInBounds σ)) :
    Denotes s (readRollback root head index un) 8 v := by
  induction un with
  | null =>
    unfold readRollback
    split
    · obtain ⟨i', rfl, hi'⟩ := hi.constant_inv
      split
      case isTrue hlt =>
        split
        case isTrue hroot =>
          refine (Denotes.constant (w := 8) (by decide)).congr fun hs => ?_
          obtain ⟨σ, hσ⟩ := Option.isSome_iff_exists.mp hs
          rw [(hv σ hσ).1, UpdateNode.eval, Array.initial, if_pos hroot, ← hi' hs]
        case isFalse hroot =>
          exact Denotes.read hun hi fun σ hσ => ⟨(hv σ hσ).1, fun ho =>
            ⟨(hv σ hσ).2 ho, fun hroot' => absurd hroot' hroot⟩⟩
      case isFalse => exact h
    · exact h
  | node next j val ih =>
    obtain ⟨hnext, ⟨hj, hjw⟩, hval, hvalw⟩ := hun
    have hdj := Denotes.self_at (s := s) hj hjw fun σ hσ ho => ((hv σ hσ).2 ho).2.1
    have hdval := Denotes.self_at (s := s) hval hvalw fun σ hσ ho => ((hv σ hσ).2 ho).2.2
    have heq := EqExpr.create_denotes hi hdj
    rw [readRollback]
    split
    · rename_i ce hce
      rw [hce] at heq
      obtain ⟨z, rfl, hz⟩ := heq.constant_inv
      split
      case isTrue ht =>
        refine hdval.congr fun hs => ?_
        obtain ⟨σ, rfl⟩ := Option.isSome_iff_exists.mp hs
        have hij : i = j.eval σ 32 := by
          have hz1 : z = 1#1 := by simpa [ConstantExpr.isTrue, BitVec.ne_zero_iff_eq_one] using ht
          rw [hz hs, BitVec.ofBool_eq_one, beq_iff_eq] at hz1
          exact hz1
        rw [(hv σ rfl).1, UpdateNode.eval, if_pos hij.symm]
        rfl
      case isFalse hf =>
        refine ih hnext fun σ hσ => ⟨?_, fun ho => ((hv σ hσ).2 ho).1⟩
        obtain rfl := hσ
        have hij : i ≠ j.eval σ 32 := by
          have hz0 : z = 0#1 := by simpa [ConstantExpr.isTrue] using hf
          rw [hz rfl, BitVec.ofBool_eq_zero, beq_eq_false_iff_ne] at hz0
          exact hz0
        rw [(hv σ rfl).1, UpdateNode.eval, if_neg hij.symm]
    · split
      · exact Denotes.read ⟨hnext, ⟨hj, hjw⟩, hval, hvalw⟩ hi fun σ hσ =>
          ⟨(hv σ hσ).1, fun ho => ⟨(hv σ hσ).2 ho, fun _ hnull => by cases hnull⟩⟩
      · exact h

theorem ReadExpr.create_denotes {root : Array} {head : UpdateNode} {index : Expr} {v : BitVec 8}
    (h : Denotes s (.read root head index) 8 v) :
    Denotes s (ReadExpr.create ⟨root, head⟩ index) 8 v := by
  obtain ⟨-, hh, i, hi, hv⟩ := h.read_inv
  refine readRollback_denotes h hi head hh fun σ hσ => ⟨?_, fun ho => ((hv σ hσ).2 ho).1⟩
  rw [(hv σ hσ).1, BitVec.setWidth_eq]

end Read

end Klee
