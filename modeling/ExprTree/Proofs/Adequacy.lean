import ExprTree.Proofs.Meaning
import ExprTree.Proofs.Sharing
import ExprTree.Proofs.Termination
/-!
# Evaluation gives the meaning

Evaluation by name gives what a tree means, where the variables stand for what
the valuation says. With termination, and since sharing is not observable,
evaluation on the heap gives it as well.
-/

namespace ExprTree

mutual

inductive NameValue.Means : (ty : Ty) → NameValue → ty.Carrier → Prop where
  | bool (b : Bool) : NameValue.Means .bool (.bool b) b
  | int (n : Int64) : NameValue.Means .int (.int n) n
  | closure {Γ : Context} {ρ : Valuation} {env : NameEnv} {id : VarId} {body : Tree} {A B : Ty} :
      Typed (Γ.set id A) body B → NameEnv.Means Γ ρ env →
        NameValue.Means (.fn A B) (.closure id body env) fun m => body.value (ρ.set id A m) B

inductive NameSlot.Means : (ty : Ty) → NameSlot → Meaning ty → Prop where
  | ready {ty : Ty} {v : NameValue} {x : ty.Carrier} :
      NameValue.Means ty v x → NameSlot.Means ty (.ready v) (.ok x)
  | delayed {Γ : Context} {ρ : Valuation} {env : NameEnv} {t : Tree} {ty : Ty} :
      Typed Γ t ty → NameEnv.Means Γ ρ env → NameSlot.Means ty (.delayed t env) (t.value ρ ty)

/-- Every variable stands for what the valuation says at its type; an unbound one
is a failure. -/
inductive NameEnv.Means : Context → Valuation → NameEnv → Prop where
  | intro {Γ : Context} {ρ : Valuation} {env : NameEnv} :
      (∀ id, env.get? id = none → ρ id (Γ id) = .error (.plain (.unboundVariable id))) →
        (∀ id slot, env.get? id = some slot → NameSlot.Means (Γ id) slot (ρ id (Γ id))) →
        NameEnv.Means Γ ρ env

end

theorem NameEnv.Means.bind {Γ : Context} {ρ : Valuation} {env : NameEnv} (henv : env.Means Γ ρ)
    (id : VarId) {ty : Ty} {slot : NameSlot} {m : Meaning ty} (hslot : slot.Means ty m) :
    (NameEnv.bind id slot env).Means (Γ.set id ty) (ρ.set id ty m) := by
  obtain ⟨hnone, hsome⟩ := henv
  refine .intro (fun x hx => ?_) fun x s hs => ?_
  · by_cases hxid : id = x
    · simp [NameEnv.get?, hxid] at hx
    · rw [NameEnv.get?, if_neg hxid] at hx
      rw [Γ.set_other ty (Ne.symm hxid), ρ.set_other id m (Ne.symm hxid)]
      exact hnone x hx
  · by_cases hxid : id = x
    · subst hxid
      obtain rfl : slot = s := by simpa [NameEnv.get?] using hs
      rw [Γ.set_same id ty, ρ.set_same id m]
      exact hslot
    · rw [NameEnv.get?, if_neg hxid] at hs
      rw [Γ.set_other ty (Ne.symm hxid), ρ.set_other id m (Ne.symm hxid)]
      exact hsome x s hs

/-- If the computation ends, its result is in relation `R` to `x`. -/
def NameM.Gives {α β : Type} (R : α → β → Prop) (m : NameM α) (x : Except Failure β) : Prop :=
  ∀ r : Except Failure α, m = some r → Related R r x

namespace NameM.Gives

variable {α β γ δ : Type} {R : α → β → Prop} {Q : γ → δ → Prop}

theorem of_eq {m : NameM α} {r : Except Failure α} {x : Except Failure β} (hm : m = some r)
    (hr : Related R r x) : NameM.Gives R m x := by
  intro r' hr'
  obtain rfl : r = r' := Option.some.inj (hm.symm.trans hr')
  exact hr

theorem bind {m : NameM α} {f : α → NameM γ} {x : Except Failure β} {g : β → Except Failure δ}
    (hm : NameM.Gives R m x) (hf : ∀ a b, R a b → NameM.Gives Q (f a) (g b)) :
    NameM.Gives Q (m >>= f) (x >>= g) := by
  intro r hr
  rw [NameM.bind_eq] at hr
  cases hm' : (m : Option (Except Failure α)) with
  | none => simp [hm'] at hr
  | some p =>
      rw [hm'] at hr
      cases hm p hm' with
      | ok hab => exact hf _ _ hab r hr
      | error e =>
          obtain rfl : .error e = r := Option.some.inj hr
          exact .error e

end NameM.Gives

theorem NameValue.Means.eq_bool {v : NameValue} {p : Bool} (h : v.Means .bool p) : v = .bool p := by
  cases h with
  | bool => rfl

theorem NameValue.Means.eq_int {v : NameValue} {m : Int64} (h : v.Means .int m) : v = .int m := by
  cases h with
  | int => rfl

def EvalGives (n : Nat) : Prop :=
  ∀ {Γ : Context} {t : Tree} {ty : Ty} {env : NameEnv} {ρ : Valuation}, Typed Γ t ty →
    env.Means Γ ρ → NameM.Gives (NameValue.Means ty) (evalByName n t env) (t.value ρ ty)

theorem NameValue.Means.call {n : Nat} {A B : Ty} {v : NameValue} {f : (Ty.fn A B).Carrier}
    {slot : NameSlot} {m : Meaning A} (hv : v.Means (.fn A B) f) (hslot : slot.Means A m)
    (hrun : EvalGives n) :
    NameM.Gives (NameValue.Means B) (v.call (evalByName n) slot) (f m) := by
  cases hv with
  | closure hbody henv => exact hrun hbody (henv.bind _ hslot)

theorem NameSlot.Means.force {n : Nat} {ty : Ty} {slot : NameSlot} {m : Meaning ty}
    (hslot : slot.Means ty m) (hrun : EvalGives n) :
    NameM.Gives (NameValue.Means ty) (slot.force (evalByName n)) m := by
  cases hslot with
  | ready hv => exact .of_eq rfl (.ok hv)
  | delayed ht henv => exact hrun ht henv

theorem evalByName_two (n : Nat) {s : Symbol} {a b : Tree}
    (hform : (Tree.node (.node (.leaf s) a) b).form = .strict s [a, b]) (env : NameEnv) :
    evalByName (n + 1) (.node (.node (.leaf s) a) b) env =
      (do
        let v ← evalByName n a env
        let w ← evalByName n b env
        s.denoteByName (evalByName n) [v, w] : NameM NameValue) := by
  rw [evalByName, hform, Form.stepByName_two]

theorem NameM.Gives.test {α β : Type} {R : α → β → Prop} {m : NameM α} {x : Except Failure β}
    (hm : NameM.Gives R m x) : NameM.Gives R m.test (markTest x) := by
  intro r hr
  obtain ⟨r₀, hr₀, rfl⟩ := Option.map_eq_some_iff.1 hr
  cases hm r₀ hr₀ with
  | ok hab => exact .ok hab
  | error e => exact .error _

theorem evalByName_gives (n : Nat) : EvalGives n := by
  induction n with
  | zero =>
      intro Γ t ty env ρ _ _ r hr
      simp [evalByName] at hr
  | succ n ih =>
      intro Γ t ty env ρ ht henv
      cases ht with
      | int m => exact .of_eq rfl (.ok (.int m))
      | bool p => exact .of_eq rfl (.ok (.bool p))
      | var id =>
          obtain ⟨hnone, hsome⟩ := henv
          rw [Tree.value_var]
          change NameM.Gives _ (Form.stepByName (evalByName n) env (.read id)) _
          simp only [Form.stepByName]
          cases hget : env.get? id with
          | none =>
              rw [hnone id hget]
              exact .of_eq rfl (.error _)
          | some slot => exact (hsome id slot hget).force ih
      | @arith _ a b op ha hb =>
          rw [evalByName_two n rfl, Tree.value_arith ρ op ha.resultType_eq hb.resultType_eq]
          refine (ih ha henv).bind fun v x hv => (ih hb henv).bind fun w y hw => ?_
          obtain rfl := hv.eq_int
          obtain rfl := hw.eq_int
          change NameM.Gives _ (do
            let z ← (op.eval x y).mapError Failure.plain
            return NameValue.int z : NameM NameValue) _
          cases op.eval x y with
          | ok z => exact .of_eq rfl (.ok (.int z))
          | error e => exact .of_eq rfl (.error _)
      | @compare _ a b op ha hb =>
          rw [evalByName_two n rfl, Tree.value_compare ρ op ha.resultType_eq hb.resultType_eq]
          refine (ih ha henv).bind fun v x hv => (ih hb henv).bind fun w y hw => ?_
          obtain rfl := hv.eq_int
          obtain rfl := hw.eq_int
          exact .of_eq rfl (.ok (.bool _))
      | negation ha =>
          rw [Tree.value_negation ρ ha.resultType_eq]
          change NameM.Gives _ ([_].mapM (fun arg => evalByName n arg env)
            >>= Symbol.denoteByName (evalByName n) .negation) _
          simp only [List.mapM_cons, List.mapM_nil, bind_assoc, pure_bind]
          refine (ih ha henv).bind fun v x hv => ?_
          obtain rfl := hv.eq_bool
          exact .of_eq rfl (.ok (.bool _))
      | conjunction ha hb =>
          rw [evalByName_two n rfl, Tree.value_conjunction ρ ha.resultType_eq hb.resultType_eq]
          refine (ih ha henv).bind fun v (p : Bool) hv => ?_
          refine (ih hb henv).bind fun w (q : Bool) hw => ?_
          obtain rfl := hv.eq_bool
          obtain rfl := hw.eq_bool
          cases p with
          | true => exact .of_eq rfl (.ok (.bool q))
          | false => exact .of_eq rfl (.ok (.bool false))
      | cond htest ha hb =>
          rw [Tree.value_cond ρ htest.resultType_eq ha.resultType_eq hb.resultType_eq]
          refine (ih htest henv).test.bind fun v (p : Bool) hv => ?_
          obtain rfl := hv.eq_bool
          cases p with
          | true => exact ih ha henv
          | false => exact ih hb henv
      | lambda hbody => exact .of_eq rfl (.ok (.closure hbody henv))
      | letIn ha hb =>
          rw [Tree.value_letIn ρ ha.resultType_eq hb.resultType_eq]
          exact (ih hb henv).bind fun v f hv => hv.call (.delayed ha henv) ih
      | call ha hb =>
          rw [evalByName_two n rfl, Tree.value_call ρ ha.resultType_eq hb.resultType_eq]
          exact (ih ha henv).bind fun v f hv => (ih hb henv).bind fun w x hw =>
            hv.call (.ready hw) ih

/-! ## On the heap -/

def Value.Stands (ty : Ty) (v : Value) (x : ty.Carrier) : Prop :=
  ∃ (w : World) (v' : NameValue), v.Reads w v' ∧ v'.Means ty x

/-- Integers and truth values are what they stand for. -/
theorem Value.Stands.unique {ty : Ty} (hty : ty.isFn = false) {v w : Value} {x : ty.Carrier}
    (hv : v.Stands ty x) (hw : w.Stands ty x) : v = w := by
  obtain ⟨_, v', hread, hv'⟩ := hv
  obtain ⟨_, w', hread', hw'⟩ := hw
  cases hv' with
  | bool b =>
      obtain rfl := hw'.eq_bool
      cases hread
      cases hread'
      rfl
  | int n =>
      obtain rfl := hw'.eq_int
      cases hread
      cases hread'
      rfl
  | closure => simp [Ty.isFn] at hty

def Slot.groundType? : Slot → Option Ty
  | .ready (.bool _) => some .bool
  | .ready (.int _) => some .int
  | _ => none

/-- All bindings are of integers and truth values, for the variables in `vars` of
the types that the context gives them. -/
def Env.Assigns (env : Env) (Γ : Context) (vars : VarSet) : Prop :=
  ∀ id slot, env.get? id = some slot →
    ∃ ty, slot.groundType? = some ty ∧ (id ∈ vars → Γ id = ty)

def Env.valuation (env : Env) : Valuation := fun id ty =>
  match env.get? id, ty with
  | some (.ready (.bool b)), .bool => .ok b
  | some (.ready (.int n)), .int => .ok n
  | _, _ => .error (.plain (.unboundVariable id))

/-- The types of the variables of an environment; those of `Γ` where it has none. -/
def Env.context (env : Env) (Γ : Context) : Context := fun id =>
  ((env.get? id).bind Slot.groundType?).getD (Γ id)

def Slot.byName : Slot → NameSlot
  | .ready (.bool b) => .ready (.bool b)
  | .ready (.int n) => .ready (.int n)
  | _ => .failed (.plain .cyclicBinding)

def Env.byName : Env → NameEnv
  | .empty => .empty
  | .bind id slot rest => .bind id slot.byName rest.byName

theorem Env.get?_byName (env : Env) (id : VarId) :
    env.byName.get? id = (env.get? id).map Slot.byName := by
  fun_induction Env.byName env with
  | case1 => rfl
  | case2 x slot rest ih =>
      by_cases hx : x = id <;> simp [NameEnv.get?, Env.get?, hx, ih]

theorem Slot.groundType?_cases {slot : Slot} {ty : Ty} (h : slot.groundType? = some ty) :
    (∃ b, slot = .ready (.bool b) ∧ ty = .bool) ∨ (∃ n, slot = .ready (.int n) ∧ ty = .int) := by
  cases slot with
  | delayed loc => simp [groundType?] at h
  | ready v =>
      cases v with
      | bool b => exact .inl ⟨b, rfl, by simpa [groundType?] using h.symm⟩
      | int n => exact .inr ⟨n, rfl, by simpa [groundType?] using h.symm⟩
      | closure => simp [groundType?] at h

namespace Env.Assigns

variable {env : Env} {Γ : Context} {vars : VarSet}

theorem empty (Γ : Context) (vars : VarSet) : Env.empty.Assigns Γ vars := by
  intro id slot hslot
  cases hslot

theorem bind (h : env.Assigns Γ vars) {id : VarId} {slot : Slot} {ty : Ty}
    (hslot : slot.groundType? = some ty) (hid : id ∈ vars → Γ id = ty) :
    (Env.bind id slot env).Assigns Γ vars := by
  intro x slot' hx
  rw [Env.get?] at hx
  split at hx
  · rename_i hidx
    obtain rfl := hidx
    obtain rfl := Option.some.inj hx
    exact ⟨ty, hslot, hid⟩
  · exact h x slot' hx

theorem context_eq (h : env.Assigns Γ vars) {id : VarId} (hid : id ∈ vars) :
    env.context Γ id = Γ id := by
  unfold Env.context
  cases hget : env.get? id with
  | none => rfl
  | some slot =>
      obtain ⟨ty, hslot, hty⟩ := h id slot hget
      simp [hslot, hty hid]

theorem reads (h : env.Assigns Γ vars) (w : World) : env.Reads w env.byName := by
  refine .intro (fun id => ?_) fun id slot slot' hget hget' => ?_
  · rw [env.get?_byName, Option.isSome_map]
  · obtain ⟨ty, hslot, _⟩ := h id slot hget
    rw [env.get?_byName, hget] at hget'
    obtain rfl : slot.byName = slot' := by simpa using hget'
    rcases Slot.groundType?_cases hslot with ⟨b, rfl, _⟩ | ⟨n, rfl, _⟩
    · exact .ready (.bool b)
    · exact .ready (.int n)

theorem means (h : env.Assigns Γ vars) : env.byName.Means (env.context Γ) env.valuation := by
  refine .intro (fun id hget => ?_) fun id slot' hget' => ?_
  · rw [env.get?_byName, Option.map_eq_none_iff] at hget
    simp [Env.valuation, hget]
  · rw [env.get?_byName, Option.map_eq_some_iff] at hget'
    obtain ⟨slot, hget, rfl⟩ := hget'
    obtain ⟨ty, hslot, _⟩ := h id slot hget
    have hctx : env.context Γ id = ty := by simp [Env.context, hget, hslot]
    rw [hctx]
    rcases Slot.groundType?_cases hslot with ⟨b, rfl, rfl⟩ | ⟨n, rfl, rfl⟩
    · simp only [Env.valuation, hget]
      exact .ready (.bool b)
    · simp only [Env.valuation, hget]
      exact .ready (.int n)

theorem reducible {E : EvalError → Prop} (h : env.Assigns Γ vars) {vars' : VarSet}
    (hE : ∀ id ∈ vars', env.get? id = none → E (.unboundVariable id)) :
    env.byName.Reducible E (env.context Γ) vars' := by
  intro id hid
  cases hget : env.get? id with
  | none =>
      rw [env.get?_byName, hget]
      exact hE id hid hget
  | some slot =>
      obtain ⟨ty, hslot, _⟩ := h id slot hget
      have hctx : env.context Γ id = ty := by simp [Env.context, hget, hslot]
      rw [env.get?_byName, hget, hctx]
      rcases Slot.groundType?_cases hslot with ⟨b, rfl, rfl⟩ | ⟨n, rfl, rfl⟩
      · exact .pure ⟨b, rfl⟩
      · exact .pure ⟨n, rfl⟩

end Env.Assigns

theorem Tree.WellAnnotated.of_assigns {t : Tree} {Γ : Context} {env : Env} (h : t.WellAnnotated Γ)
    (henv : env.Assigns Γ (t.freeVars .standard)) : t.WellAnnotated (env.context Γ) :=
  h.congr fun _ hid => henv.context_eq hid

/-- The tree evaluates to `r` from heap `h`, with all fuel from some amount on. -/
def Tree.Evaluates (t : Tree) (env : Env) (h : Heap) (r : Except EvalError Value) : Prop :=
  ∃ h', Settles (fun k => eval k t env h) (r, h')

/-- With less fuel there is the same result or none. -/
theorem Settles.eval_cases {t : Tree} {env : Env} {h : Heap} {p : Except EvalError Value × Heap}
    (hp : Settles (fun k => eval k t env h) p) (fuel : Nat) :
    eval fuel t env h = some p ∨ eval fuel t env h = none := by
  obtain ⟨n, hn⟩ := hp
  cases heval : eval fuel t env h with
  | none => exact .inr rfl
  | some q =>
      have hmono := eval_mono (Nat.le_max_left fuel n) t env heval
      exact .inl (hmono.symm.trans (hn _ (Nat.le_max_right fuel n)))

/-- The tree evaluates to `r` from heap `s`, where the failure tells whether it was
raised in a test. -/
def Tree.EvaluatesMarked (t : Tree) (env : Env) (s : MarkedHeap) (r : Except Failure Value) :
    Prop :=
  ∃ s', Settles (fun k => evalMarked k t env s) (r, s')

theorem Tree.EvaluatesMarked.evaluates {t : Tree} {env : Env} {s : MarkedHeap}
    {r : Except Failure Value} (h : t.EvaluatesMarked env s r) :
    t.Evaluates env s.heap (r.mapError Failure.error) := by
  obtain ⟨s', n, hn⟩ := h
  refine ⟨s'.heap, n, fun k hk => ?_⟩
  have hmarked : evalMarked k t env s = some (r, s') := hn k hk
  exact (evalMarked_erases k t env s).trans (by rw [hmarked]; rfl)

theorem Tree.EvaluatesMarked.unique {t : Tree} {env : Env} {s : MarkedHeap}
    {r r' : Except Failure Value} (h : t.EvaluatesMarked env s r)
    (h' : t.EvaluatesMarked env s r') : r = r' := by
  obtain ⟨s', hs⟩ := h
  obtain ⟨s'', hs'⟩ := h'
  exact congrArg Prod.fst (hs.unique hs')

/-- A full well-annotated tree evaluates to its meaning, on every heap. -/
theorem Typed.evaluatesMarked {Γ : Context} {t : Tree} {ty : Ty} {env : Env} {vars : VarSet}
    (h : Typed (env.context Γ) t ty) (henv : env.Assigns Γ vars) (s : MarkedHeap) :
    ∃ r, t.EvaluatesMarked env s r ∧ Related (Value.Stands ty) r (t.value env.valuation ty) := by
  have hends : t.Reducible (fun _ => True) env.byName ty :=
    h.reducible trivial (henv.reducible fun _ _ _ => trivial)
  obtain ⟨r', ⟨n, hn⟩, _⟩ := hends
  have hcompletes : Completes .name n (fun k => evalMarked k t env) s
      (fun k => evalByName k t env.byName) := by
    intro hnone
    exact Option.some_ne_none r' ((hn n (Nat.le_refl n)).symm.trans hnone)
  obtain ⟨⟨r, s'⟩, r'', hgiven, hheap, _, w, _, _, hrel⟩ :=
    eval_linked .name n [] t env env.byName (henv.reads []) s trivial hcompletes
  have hmeans : Related (NameValue.Means ty) r'' (t.value env.valuation ty) :=
    evalByName_gives n h henv.means r'' hgiven
  exact ⟨r, ⟨s', hheap⟩, hrel.comp hmeans fun _ v' _ hv hv' => ⟨w, v', hv, hv'⟩⟩

theorem Typed.evaluatesMarked_ground {Γ : Context} {t : Tree} {ty : Ty} {env : Env} {vars : VarSet}
    (h : Typed (env.context Γ) t ty) (hty : ty.isFn = false) (henv : env.Assigns Γ vars) :
    ∃ r, (∀ s, t.EvaluatesMarked env s r)
      ∧ Related (Value.Stands ty) r (t.value env.valuation ty) := by
  obtain ⟨r, _, hstands⟩ := h.evaluatesMarked henv ⟨.empty, fun _ => false⟩
  refine ⟨r, fun s => ?_, hstands⟩
  obtain ⟨r', hr', hstands'⟩ := h.evaluatesMarked henv s
  obtain rfl := hstands.left_unique hstands' fun _ _ _ => Value.Stands.unique hty
  exact hr'

end ExprTree
