import NativeBackend.Proofs.Lowering.LowerEffects
import NativeBackend.Proofs.Lowering.Sound

namespace NativeBackend.Lowering

open Steps

variable {x : LoweringInput} {lower : NodeId → LowerM Operand} {s s' : LoweringState} {n : NodeId} {o : Operand}

theorem symbols_literal (l : Literal) (type : Ty) : (l.constant type).symbols = [] := by
  cases l with
  | float bits =>
      unfold Literal.constant
      dsimp only
      split <;> simp only [Constant.symbols]
  | _ => simp only [Literal.constant, Constant.symbols]

theorem lowerPointer_goes (hs : Sound x s) {p : Pointer} (hp : p.Made) (h : lowerPointer x n p s = .ok o s') :
    Goes x s s' ∧ o.Known s'.emission.module ∧
      (s'.emission.diagnostics.errorCount = 0 → p.root.symbol?.isNone = false) := by
  cases hroot : p.root with
  | global symbol =>
      simp only [lowerPointer, hroot] at h
      obtain ⟨_, s₁, hdeclare, hdone⟩ := bind_eq_ok.1 h
      obtain ⟨hg, hknown⟩ := produce_declares hs (s.emission.module.declareData_declares _ _) hdeclare
      cases hdone
      exact ⟨hg, known_global hknown, fun _ => rfl⟩
  | memory region =>
      simp only [lowerPointer, hroot] at h
      obtain ⟨_, s₁, hreport, hdone⟩ := bind_eq_ok.1 h
      obtain ⟨hg, herror⟩ := report_goes hs hreport
      cases hdone
      exact ⟨hg, known_of_nil rfl, fun hnone => absurd hnone herror.ne'⟩
  | method symbol =>
      obtain ⟨signature, hsignature⟩ := hp.signature hroot
      simp only [lowerPointer, hroot, hsignature] at h
      obtain ⟨t, -, h₁⟩ := ofExcept_bind_eq_ok.1 h
      obtain ⟨_, s₁, hdeclare, hdone⟩ := bind_eq_ok.1 h₁
      obtain ⟨hg, hknown⟩ := produce_declares hs (s.emission.module.declareFunction_declares _ _) hdeclare
      cases hdone
      exact ⟨hg, known_global hknown, fun _ => rfl⟩

theorem markEffect_goes (hs : Sound x s) (h : markEffect n s = .ok ⟨⟩ s') : Goes x s s' := by
  cases h
  exact ⟨⟨hs.values, hs.blocks, hs.supported⟩, .refl _⟩

theorem pendingEffects_goes (hs : Sound x s) {steps : Nat} {later pending : List NodeId}
    (h : pendingEffects x later steps n s = .ok pending s') : Goes x s s' := by
  induction steps generalizing n later with
  | zero => cases h
  | succ steps ih =>
      rcases pendingEffects_succ h with ⟨-, -, rfl⟩ | ⟨-, ⟨b, -, -, hmark⟩ | ⟨k, d, -, -, hstep⟩⟩
      · exact hs.goes
      · exact markEffect_goes hs hmark
      · exact ih hstep

theorem discard_goes {step : LowerM Operand}
    (hstep : ∀ {o : Operand} {s' : LoweringState}, step s = .ok o s' → Goes x s s')
    (h : discard step s = .ok ⟨⟩ s') : Goes x s s' := by
  obtain ⟨o, s₁, hlow, hdone⟩ := bind_eq_ok.1 h
  cases hdone
  exact hstep hlow

theorem forM_goes {α : Type} {step : α → LowerM PUnit}
    (hstep : ∀ {s : LoweringState} {a : α} {s' : LoweringState}, Sound x s → step a s = .ok ⟨⟩ s' → Goes x s s')
    {as : List α} (hs : Sound x s) (h : as.forM step s = .ok ⟨⟩ s') : Goes x s s' := by
  induction as generalizing s with
  | nil =>
      cases h
      exact hs.goes
  | cons a as ih =>
      rw [List.forM_eq_forM, List.forM_cons] at h
      obtain ⟨_, s₁, ha, hrest⟩ := bind_eq_ok.1 h
      have hg := hstep hs ha
      exact hg.trans (ih hg.sound hrest)

section

variable (hlower : LowersSoundly x lower)

include hlower

theorem lowerCallee_goes (hs : Sound x s) {target : CallTarget} (h : lowerCallee lower target s = .ok o s') :
    Goes x s s' ∧ o.Known s'.emission.module := by
  cases target with
  | direct m =>
      obtain ⟨signature, -, h₁⟩ := ofExcept_bind_eq_ok.1 h
      obtain ⟨_, s₁, hdeclare, hdone⟩ := bind_eq_ok.1 h₁
      obtain ⟨hg, hknown⟩ := produce_declares hs (s.emission.module.declareFunction_declares _ _) hdeclare
      cases hdone
      exact ⟨hg, known_global hknown⟩
  | indirect pointer signature => exact hlower hs h

theorem lowerArgs_goes (hs : Sound x s) {args : List NodeId} {passed : List (IrType × Operand)}
    (h : lowerArgs x lower args s = .ok passed s') : Goes x s s' ∧ ∀ a ∈ passed, a.2.Known s'.emission.module := by
  induction args generalizing s passed with
  | nil =>
      cases h
      exact ⟨hs.goes, by simp⟩
  | cons n args ih =>
      obtain ⟨type, t, -, -, h₁⟩ := operandType_bind_eq_ok h
      obtain ⟨o, s₁, ho, h₂⟩ := bind_eq_ok.1 h₁
      obtain ⟨rest, s₂, hrest, hdone⟩ := bind_eq_ok.1 h₂
      cases hdone
      obtain ⟨hg, hknown⟩ := hlower hs ho
      obtain ⟨hg', hall⟩ := ih hg.sound hrest
      refine ⟨hg.trans hg', fun a ha => ?_⟩
      rcases List.mem_cons.1 ha with rfl | ha
      · exact known_advances hknown hg'.advances
      · exact hall a ha

theorem lowerIncoming_goes (hs : Sound x s) {block : BlockId} {index : Nat} {inputs : List (BlockId × NodeId)}
    (h : lowerIncoming lower block index inputs s = .ok ⟨⟩ s') : Goes x s s' := by
  induction inputs generalizing s with
  | nil =>
      cases h
      exact hs.goes
  | cons input inputs ih =>
      obtain ⟨predecessor, value⟩ := input
      obtain ⟨o, s₁, ho, h₁⟩ := bind_eq_ok.1 h
      obtain ⟨hg, hknown⟩ := hlower hs ho
      rw [bind_of_ok (discover_apply _ _), bind_of_ok (modifyBlock_apply _ _ _)] at h₁
      have hg₁ := hg.trans (hg.sound.discover predecessor)
      have hg₂ := hg₁.trans
        (hg₁.sound.changeAt (adds_addIncoming hknown index (blockLabel predecessor)) block s₁.nextLocal)
      exact hg₂.trans (ih hg₂.sound h₁)

theorem lowerPhi_goes (hs : Sound x s) (hn : x.graph.Supported n) {t : IrType}
    (h : lowerPhi x lower n t s = .ok o s') : Goes x s s' ∧ o.Known s'.emission.module := by
  rw [lowerPhi, bind_of_ok (discover_apply _ _), bind_of_ok (freshLocal_apply _), bind_of_ok (get_apply _),
    bind_of_ok (modifyBlock_apply _ _ _), bind_of_ok (remember_apply _ _ _)] at h
  obtain ⟨_, s₁, hin, hdone⟩ := bind_eq_ok.1 h
  cases hdone
  -- the phi is remembered before its inputs are lowered: a loop comes back to a value that is known
  have hg := hs.discover (x.schedule.blockOf n)
  have hg₁ := hg.trans (hg.sound.changeAt (adds_pushPhi _ ⟨s.nextLocal⟩ t) (x.schedule.blockOf n) (s.nextLocal + 1))
  have hg₂ := hg₁.trans (hg₁.sound.remember (known_of_nil (o := .ofLocal ⟨s.nextLocal⟩) rfl) fun _ => hn)
  exact ⟨hg₂.trans (lowerIncoming_goes hlower hg₂.sound hin), known_of_nil rfl⟩

theorem lowerAction_goes (hs : Sound x s) {a : ActionNode} (h : lowerAction x lower n a s = .ok ⟨⟩ s') :
    Goes x s s' := by
  cases a with
  | blockEntry b =>
      cases h
      exact hs.goes
  | store pointer value mode dependency =>
      obtain ⟨type, t, -, -, h₁⟩ := operandType_bind_eq_ok h
      obtain ⟨p, s₁, hp, h₂⟩ := bind_eq_ok.1 h₁
      obtain ⟨v, s₂, hv, hemit⟩ := bind_eq_ok.1 h₂
      obtain ⟨hg, hknown⟩ := hs.goes.operand @hlower [] nofun hp
      obtain ⟨hg', hknown'⟩ := hg.operand @hlower _ hknown hv
      refine hg'.trans (emit_goes hg'.sound ?_ hemit)
      simpa [Instruction.operands, and_comm] using hknown'
  | monitorEnter object dependency | monitorExit object dependency =>
      obtain ⟨p, s₁, hp, hcall⟩ := bind_eq_ok.1 h
      obtain ⟨hg, hknown⟩ := hlower hs hp
      exact hg.trans (callRoutine_goes hg.sound (by simpa using hknown) hcall)

theorem lowerEffect_goes (hs : Sound x s) (h : lowerEffect x lower n s = .ok ⟨⟩ s') : Goes x s s' := by
  rw [lowerEffect] at h
  cases hk : x.graph.kind? n with
  | none => exact discard_goes (fun h => (hlower hs h).1) (by simpa only [hk] using h)
  | some k =>
      cases k with
      | value v => exact discard_goes (fun h => (hlower hs h).1) (by simpa only [hk] using h)
      | terminator t => exact discard_goes (fun h => (hlower hs h).1) (by simpa only [hk] using h)
      | action a =>
          simp only [hk] at h
          obtain ⟨_, s₁, haction, hmark⟩ := bind_eq_ok.1 h
          have hg := lowerAction_goes hlower hs haction
          exact hg.trans (markEffect_goes hg.sound hmark)

theorem lowerEffects_goes (hs : Sound x s) (h : lowerEffects x lower n s = .ok ⟨⟩ s') : Goes x s s' := by
  obtain ⟨pending, s₁, hpending, hforM⟩ := bind_eq_ok.1 h
  have hg := pendingEffects_goes hs hpending
  exact hg.trans (forM_goes (fun hs h => lowerEffect_goes hlower hs h) hg.sound hforM)

theorem lowerCall_goes (hs : Sound x s) {type : Ty} {target : CallTarget} {args : List NodeId}
    (h : lowerCall x lower n type target args s = .ok o s') : Goes x s s' ∧ o.Known s'.emission.module := by
  obtain ⟨callee, passed, t, s₁, s₂, hcallee, hpassed, -, hlast⟩ := lowerCall_run h
  obtain ⟨hg, hknown⟩ := lowerCallee_goes hlower hs hcallee
  obtain ⟨hg', hargs⟩ := lowerArgs_goes hlower hg.sound hpassed
  have hcall := known_call (known_advances hknown hg'.advances) hargs
  rcases hlast with ⟨-, rfl, hemit⟩ | ⟨-, hdefine⟩
  · exact ⟨(hg.trans hg').trans (emit_goes hg'.sound (hcall none .void) hemit), known_of_nil rfl⟩
  · exact (hg.trans hg').define hdefine fun l => hcall (some l) t

theorem lowerOp_goes (hs : Sound x s) {v : ValueNode} (hk : x.graph.kind? n = some (.value v))
    (hpointers : x.graph.PointersMade) (h : lowerOp x lower n v s = .ok o s') :
    Goes x s s' ∧ o.Known s'.emission.module ∧
      (s'.emission.diagnostics.errorCount = 0 → x.graph.Supported n) := by
  obtain ⟨type, op⟩ := v
  cases op with
  | literal l =>
      cases h
      refine ⟨hs.goes, known_of_nil ?_, fun _ => supported_of_kind hk rfl⟩
      rw [Operand.symbols, symbols_literal]
  | parameter index =>
      rw [lowerOp] at h
      dsimp only at h
      split at h
      · cases h
        exact ⟨hs.goes, known_of_nil rfl, fun _ => supported_of_kind hk rfl⟩
      · cases h
  | binary op lhs rhs =>
      obtain ⟨operand, kind, -, -, h₁⟩ := numericKind_bind_eq_ok h
      obtain ⟨opcode, -, h₂⟩ := ofExcept_bind_eq_ok.1 h₁
      obtain ⟨operand', t, -, -, h₃⟩ := operandType_bind_eq_ok h₂
      obtain ⟨a, s₁, ha, h₄⟩ := bind_eq_ok.1 h₃
      obtain ⟨b, s₂, hb, hdefine⟩ := bind_eq_ok.1 h₄
      obtain ⟨hg, hka⟩ := hs.goes.operand @hlower [] nofun ha
      obtain ⟨hg', hkb⟩ := hg.operand @hlower _ hka hb
      obtain ⟨hg'', ho⟩ := hg'.define hdefine fun _ => hkb
      exact ⟨hg'', ho, fun _ => supported_of_kind hk rfl⟩
  | neg input =>
      obtain ⟨operand, kind, -, -, h₁⟩ := numericKind_bind_eq_ok h
      obtain ⟨operand', t, -, -, h₂⟩ := operandType_bind_eq_ok h₁
      obtain ⟨a, s₁, ha, hdefine⟩ := bind_eq_ok.1 h₂
      obtain ⟨hg, hka⟩ := hlower hs ha
      have hknown : ∀ l, ∀ o ∈ (negInstruction kind l t a).operands, o.Known s₁.emission.module := by
        intro l o ho
        rcases operands_neg _ _ _ _ ho with rfl | rfl
        · exact hka
        · exact known_of_nil rfl
      obtain ⟨hg', ho⟩ := hg.define hdefine hknown
      exact ⟨hg', ho, fun _ => supported_of_kind hk rfl⟩
  | cmp op lhs rhs =>
      obtain ⟨operand, kind, -, -, h₁⟩ := numericKind_bind_eq_ok h
      obtain ⟨operand', t, -, -, h₂⟩ := operandType_bind_eq_ok h₁
      obtain ⟨a, s₁, ha, h₃⟩ := bind_eq_ok.1 h₂
      obtain ⟨b, s₂, hb, hdefine⟩ := bind_eq_ok.1 h₃
      obtain ⟨hg, hka⟩ := hs.goes.operand @hlower [] nofun ha
      obtain ⟨hg', hkb⟩ := hg.operand @hlower _ hka hb
      obtain ⟨hg'', ho⟩ := hg'.define hdefine fun l => operands_cmp op kind l t a b ▸ hkb
      exact ⟨hg'', ho, fun _ => supported_of_kind hk rfl⟩
  | conversion op input =>
      obtain ⟨source, -, h₁⟩ := ofExcept_bind_eq_ok.1 h
      obtain ⟨t, -, h₂⟩ := ofExcept_bind_eq_ok.1 h₁
      obtain ⟨u, -, h₃⟩ := ofExcept_bind_eq_ok.1 h₂
      obtain ⟨opcode, -, h₄⟩ := ofExcept_bind_eq_ok.1 h₃
      obtain ⟨a, s₁, ha, hdefine⟩ := bind_eq_ok.1 h₄
      obtain ⟨hg, hka⟩ := hs.goes.operand @hlower [] nofun ha
      obtain ⟨hg', ho⟩ := hg.define hdefine fun _ => hka
      exact ⟨hg', ho, fun _ => supported_of_kind hk rfl⟩
  | select cond ifTrue ifFalse =>
      obtain ⟨t, -, h₁⟩ := ofExcept_bind_eq_ok.1 h
      obtain ⟨c, s₁, hc, h₂⟩ := bind_eq_ok.1 h₁
      obtain ⟨a, s₂, ha, h₃⟩ := bind_eq_ok.1 h₂
      obtain ⟨b, s₃, hb, hdefine⟩ := bind_eq_ok.1 h₃
      obtain ⟨hg, hkc⟩ := hs.goes.operand @hlower [] nofun hc
      obtain ⟨hg', hka⟩ := hg.operand @hlower _ hkc ha
      obtain ⟨hg'', hkb⟩ := hg'.operand @hlower _ hka hb
      obtain ⟨hg₃, ho⟩ := hg''.define hdefine fun _ => hkb
      exact ⟨hg₃, ho, fun _ => supported_of_kind hk rfl⟩
  | phi table =>
      obtain ⟨t, -, hphi⟩ := ofExcept_bind_eq_ok.1 h
      have hn : x.graph.Supported n := supported_of_kind hk rfl
      obtain ⟨hg, ho⟩ := lowerPhi_goes hlower hs hn hphi
      exact ⟨hg, ho, fun _ => hn⟩
  | pointerLiteral p =>
      obtain ⟨hg, ho, hsymbol⟩ := lowerPointer_goes hs (hpointers n type p hk) h
      exact ⟨hg, ho, fun hnone => supported_of_kind hk (hsymbol hnone)⟩
  | load pointer mode dependency =>
      obtain ⟨_, s₁, heffects, h₁⟩ := bind_eq_ok.1 h
      have hg := lowerEffects_goes hlower hs heffects
      obtain ⟨t, -, h₂⟩ := ofExcept_bind_eq_ok.1 h₁
      obtain ⟨a, s₂, ha, hdefine⟩ := bind_eq_ok.1 h₂
      obtain ⟨hg', hka⟩ := hg.operand @hlower [] nofun ha
      obtain ⟨hg'', ho⟩ := hg'.define hdefine fun _ => hka
      exact ⟨hg'', ho, fun _ => supported_of_kind hk rfl⟩
  | call target args dependency =>
      obtain ⟨_, s₁, heffects, h₁⟩ := bind_eq_ok.1 h
      have hg := lowerEffects_goes hlower hs heffects
      obtain ⟨hg', ho⟩ := lowerCall_goes hlower hg.sound h₁
      exact ⟨hg.trans hg', ho, fun _ => supported_of_kind hk rfl⟩
  | virtualLookup receiver m owner =>
      obtain ⟨index, s₁, hindex, h₁⟩ := bind_eq_ok.1 h
      obtain ⟨e, hindex', rfl⟩ := produce_run hindex
      have hg := hs.emission (Emission.vtableIndex_advances hindex')
      obtain ⟨object, s₂, hobject, hask⟩ := bind_eq_ok.1 h₁
      obtain ⟨hg', hknown⟩ := hg.operand @hlower [] nofun hobject
      obtain ⟨hg'', ho⟩ := hg'.askRoutine (by simpa [known_int] using hknown) hask
      exact ⟨hg'', ho, fun _ => supported_of_kind hk rfl⟩
  | interfaceLookup receiver m interface =>
      obtain ⟨index, s₁, hindex, h₁⟩ := bind_eq_ok.1 h
      obtain ⟨e, hindex', rfl⟩ := produce_run hindex
      have hg := hs.emission (Emission.itableIndex_advances hindex')
      obtain ⟨object, s₂, hobject, hask⟩ := bind_eq_ok.1 h₁
      obtain ⟨hg', hknown⟩ := hg.operand @hlower [] nofun hobject
      obtain ⟨hg'', ho⟩ := hg'.askRoutine (by simpa [known_int] using hknown) hask
      exact ⟨hg'', ho, fun _ => supported_of_kind hk rfl⟩
  | catchException =>
      obtain ⟨_, s₁, hreport, hdone⟩ := bind_eq_ok.1 h
      obtain ⟨hg, herror⟩ := report_goes hs hreport
      cases hdone
      exact ⟨hg, known_of_nil rfl, fun hnone => absurd hnone herror.ne'⟩

end

theorem compute_goes (hlower : LowersSoundly x lower) (hpointers : x.graph.PointersMade) (hs : Sound x s)
    {v : ValueNode} (hk : x.graph.kind? n = some (.value v)) (h : compute x lower n v s = .ok o s') :
    Goes x s s' ∧ o.Known s'.emission.module := by
  obtain ⟨hn, rfl⟩ | ⟨-, t, hop, rfl⟩ := compute_eq_ok h
  · exact ⟨hs.goes, hs.values n o hn⟩
  · obtain ⟨hg, ho, hsupported⟩ := lowerOp_goes hlower hs hk hpointers hop
    exact ⟨hg.trans (hg.sound.remember ho hsupported), ho⟩

theorem lowerValue_sound (hpointers : x.graph.PointersMade) (depth : Nat) :
    LowersSoundly x (lowerValue x depth) := by
  induction depth with
  | zero =>
      intro s n o s' _ h
      cases h
  | succ depth ih =>
      intro s n o s' hs h
      obtain ⟨hn, rfl⟩ | ⟨-, v, hk, ⟨-, h₁⟩ | ⟨-, s₁, hvisit, h₁⟩⟩ := lowerValue_eq_ok h
      · exact ⟨hs.goes, hs.values n o hn⟩
      · exact compute_goes ih hpointers hs hk h₁
      · have hg : Goes x s s₁ := forM_goes (fun hs h => discard_goes (fun h => (ih hs h).1) h) hs hvisit
        obtain ⟨hg', ho⟩ := compute_goes ih hpointers hg.sound hk h₁
        exact ⟨hg.trans hg', ho⟩

end NativeBackend.Lowering
