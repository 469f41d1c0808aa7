import SimdHash.Operations

/-! What a call of the public interface can return and leave, how it can fail,
and the invariant over runs. -/

namespace SimdHash

open OpenAddressing TagVector Transition

namespace Core

variable {K V : Type} {c : Template K} {s t : Core K V}

section Outcome

inductive Outcome (c : Template K) (s : Core K V) : Op K V c.type → Result V → Core K V → Prop
  | add {bUnique : Bool} {key : K} {value : V} {b : Bool} {index : ℕ} {t : Core K V}
      (h : Added c s bUnique false key value ((b, index), t)) :
      Outcome c s (.add bUnique key value) (.bool b) t
  | addOrUpdate {key : K} {value : V} {offered : c.type = .map} {b : Bool} {index : ℕ}
      {t : Core K V} (h : Added c s false true key value ((b, index), t)) :
      Outcome c s (.addOrUpdate key value offered) (.bool b) t
  | tryAdd {key : K} {value : V} {offered : c.type = .index} {b : Bool} {index : ℕ}
      {t : Core K V} (h : Added c s false true key value ((b, index), t)) :
      Outcome c s (.tryAdd key value offered) (.added b index) t
  | remove {key : K} {offered : c.type ≠ .index} {b : Bool} {t : Core K V}
      (h : Removed c s key (b, t)) : Outcome c s (.remove key offered) (.bool b) t
  | contains {key : K} {r : Option ℕ} (h : Looked c s key r) :
      Outcome c s (.contains key) (.bool r.isSome) s
  | foundValue {key : K} {offered : c.type = .map} {i : ℕ} {e : Entry K V} (hmet : Met c s key)
      (hlive : s.slots c i = .live e) (hkey : e.key = key) :
      Outcome c s (.tryGetValue key offered) (.value (some e.value)) s
  | noValue {key : K} {offered : c.type = .map} (hunmet : Unmet c s key) :
      Outcome c s (.tryGetValue key offered) (.value none) s
  | tryGetIndex {key : K} {offered : c.type = .index} {r : Option ℕ} (h : Looked c s key r) :
      Outcome c s (.tryGetIndex key offered) (.index r) s
  | resize {size : ℕ} {t : Core K V} (h : Resized c s size t) : Outcome c s (.resize size) .void t
  | rehash {offered : c.type ≠ .index} {t : Core K V} (h : Resized c s 0 t) :
      Outcome c s (.rehash offered) .void t
  | clear {size : ℕ} {t : Core K V} (hinv : t.Inv c) (hcount : t.count = 0) (hclean : t.tags.Clean)
      (hfactor : t.maxLoadFactor = s.maxLoadFactor) (hcap : size = 0 → t.capacity = s.capacity) :
      Outcome c s (.clear size) .void t
  | setMaxLoadFactor {mlf : FloatValue} :
      Outcome c s (.setMaxLoadFactor mlf) .void (s.setMaxLoadFactor mlf)

def CallFault (c : Template K) (s : Core K V) (fuel : ℕ) (e : Fault) : Op K V c.type → Prop
  | .add _ key _ => AddFault c s fuel key e
  | .addOrUpdate key _ _ => AddFault c s fuel key e
  | .tryAdd key _ _ => AddFault c s fuel key e
  | .remove key _ => LookupFault c s fuel key e
  | .contains key => LookupFault c s fuel key e
  | .tryGetValue key _ => LookupFault c s fuel key e
  | .tryGetIndex key _ => LookupFault c s fuel key e
  | .resize size => ResizeFault c fuel size s.count e
  | .rehash _ => Stuck s.capacity fuel s.count e
  | .clear size => e = .assertion ∧ size ≠ 0
  | .setMaxLoadFactor _ => False

variable [DecidableEq K] {fuel : ℕ}

omit [DecidableEq K] in
theorem Layout.read_found (h : s.Layout c) {i : ℕ} {e : Entry K V}
    (hlive : s.slots c i = .live e) : s.entries.read (s.ref c i) = .ok e := by
  obtain ⟨hi, htag, hrec⟩ := slots_eq_live.mp hlive
  rw [Block.read_of_lt (h.ref_lt hi htag), ← hrec, record]

theorem Inv.step_ensures (h : s.Inv c) (op : Op K V c.type) :
    Exec.Ensures (step c fuel s op) (fun r => Outcome c s op r.1 r.2)
      (fun e => CallFault c s fuel e op) := by
  cases op with
  | add bUnique key value => exact h.add_ensures.bind fun ⟨⟨b, index⟩, t⟩ ht => .add ht
  | addOrUpdate key value offered =>
    exact h.add_ensures.bind fun ⟨⟨b, index⟩, t⟩ ht => .addOrUpdate ht
  | tryAdd key value offered => exact h.add_ensures.bind fun ⟨⟨b, index⟩, t⟩ ht => .tryAdd ht
  | remove key offered => exact (h.remove_ensures offered).bind fun ⟨b, t⟩ ht => .remove ht
  | contains key => exact (h.looked_ensures key).bind fun r hr => .contains hr
  | tryGetValue key offered =>
    refine (h.looked_ensures key).bind fun r hr => ?_
    cases hr with
    | found hmet hlive hkey =>
      have hread := h.read_found hlive
      simp only [hread, Exec.ok_bind]
      exact .foundValue hmet hlive hkey
    | absent hunmet => exact .noValue hunmet
  | tryGetIndex key offered => exact (h.looked_ensures key).bind fun r hr => .tryGetIndex hr
  | resize size => exact (h.resize_ensures size).bind fun t ht => .resize ht
  | rehash offered => exact (h.rehash_ensures offered).bind fun t ht => .rehash ht
  | clear size =>
    exact (h.clear_ensures size).bind fun t ⟨hinv, hcount, hclean, hfactor, hcap⟩ =>
      .clear hinv hcount hclean hfactor hcap
  | setMaxLoadFactor mlf => exact .setMaxLoadFactor

end Outcome

section Reach

variable [DecidableEq K] {op : Op K V c.type}

omit [DecidableEq K] in
theorem Outcome.inv {r : Result V} (h : s.Inv c) (ho : Outcome c s op r t) : t.Inv c := by
  have hadded {bUnique bUpdate b : Bool} {key : K} {value : V} {index : ℕ}
      (hr : Added c s bUnique bUpdate key value ((b, index), t)) : t.Inv c := by
    cases hr with
    | inserted hslot ht => exact ht.toInv
    | found hchecked hslot hlive hkey =>
      split_ifs with hmap
      · exact h.revalued (by simp [hmap.2]) hlive rfl
      · exact h
  cases ho with
  | add hr => exact hadded hr
  | addOrUpdate hr => exact hadded hr
  | tryAdd hr => exact hadded hr
  | @remove _ offered _ _ hr =>
    cases hr with
    | removed hmet hlive hkey => exact h.buried offered hlive
    | absent hunmet => exact h
  | contains hr => exact h
  | foundValue hmet hlive hkey => exact h
  | noValue hunmet => exact h
  | tryGetIndex hr => exact h
  | resize hr => exact hr.toInv
  | rehash hr => exact hr.toInv
  | clear hinv hcount hclean hfactor hcap => exact hinv
  | setMaxLoadFactor => exact h.setMaxLoadFactor _

theorem Call.outcome {out : Result V × ℕ} (h : s.Inv c) (hcall : Call c s op out t) :
    Outcome c s op out.1 t ∧ out.2 = t.count := by
  obtain ⟨fuel, hstep, hcount⟩ := hcall
  exact ⟨(h.step_ensures op).value hstep, hcount⟩

theorem Call.inv {out : Result V × ℕ} (h : s.Inv c) (hcall : Call c s op out t) : t.Inv c :=
  (hcall.outcome h).1.inv h

omit [DecidableEq K] in
theorem Constructed.start (h : Constructed c s) : s.Inv c ∧ s.count = 0 ∧ s.tags.Clean ∧
    s.capacity = minSize ∧ s.maxLoadFactor = LoadFactor.def := by
  obtain ⟨fuel, memory, hrun⟩ := h
  exact (construct_ensures memory).value hrun

omit [DecidableEq K] in
theorem exists_constructed (c : Template K) (memory : Memory K V) :
    ∃ s : Core K V, Constructed c s := by
  have hrun : Exec.Ensures (construct c 0 memory) _ _ := construct_ensures memory
  obtain ⟨s, hs, -⟩ := hrun.returns fun _ => id
  exact ⟨s, 0, memory, hs⟩

theorem Constructed.run_inv {ok : Core K V → Op K V c.type → Prop}
    {trace : List (Op K V c.type × Result V × ℕ)} (h : Constructed c s)
    (hrun : Run (guard ok (Call c)) s trace t) : t.Inv c :=
  hrun.invariant (fun _ _ _ _ hinv hcall => hcall.2.inv hinv) h.start.1

/-- The states that a container can be in after calls that returned. -/
def Reachable (c : Template K) (s : Core K V) : Prop :=
  ∃ start trace, Constructed c start ∧ Run (Call c) start trace s

theorem reachable_of_observe {fuel : ℕ} {memory : Memory K V} {ops : List (Op K V c.type)}
    {outs : List (Result V × ℕ)} (h : observe c fuel memory ops = .ok outs) :
    ∃ s : Core K V, Reachable c s := by
  obtain ⟨start, trace, s, hstart, hrun, -⟩ := observe_run h
  exact ⟨s, start, trace, hstart, hrun⟩

theorem reachable_of_after {fuel : ℕ} {memory : Memory K V} {ops : List (Op K V c.type)}
    (h : after c fuel memory ops = .ok s) : Reachable c s := by
  obtain ⟨start, trace, hstart, hrun, -⟩ := after_run h
  exact ⟨start, trace, hstart, hrun⟩

theorem Reachable.call {out : Result V × ℕ} (h : Reachable c s) (hcall : Call c s op out t) :
    Reachable c t := by
  obtain ⟨start, trace, hstart, hrun⟩ := h
  exact ⟨start, _, hstart, hrun.snoc hcall⟩

theorem Reachable.inv (h : Reachable c s) : s.Inv c := by
  obtain ⟨start, trace, hstart, hrun⟩ := h
  exact hrun.invariant (fun _ _ _ _ hinv hcall => hcall.inv hinv) hstart.start.1

end Reach

end Core

end SimdHash
