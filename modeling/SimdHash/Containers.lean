import SimdHash.Core
import SimdHash.Transition

/-! The public interface of `Map`, `Set` and `Index` as calls on a `Core`,
construction, and runs of calls that returned. -/

namespace SimdHash

/-- The calls a container of type `t` offers. A `Set` and an `Index` take no
value; the one given for them is not looked at. -/
inductive Op (K V : Type) (t : ContainerType)
  | add (bUnique : Bool) (key : K) (value : V)
  | addOrUpdate (key : K) (value : V) (offered : t = .map := by decide)
  | tryAdd (key : K) (value : V) (offered : t = .index := by decide)
  | remove (key : K) (offered : t ≠ .index := by decide)
  | contains (key : K)
  | tryGetValue (key : K) (offered : t = .map := by decide)
  | tryGetIndex (key : K) (offered : t = .index := by decide)
  | resize (size : ℕ)
  | rehash (offered : t ≠ .index := by decide)
  | clear (size : ℕ)
  | setMaxLoadFactor (mlf : FloatValue)

/-- What a call gives back: a `bool`, with an out-parameter where it has one. -/
inductive Result (V : Type)
  | void
  | bool (ret : Bool)
  | value (value? : Option V)
  | index (index? : Option ℕ)
  | added (ret : Bool) (index : ℕ)
  deriving DecidableEq, Repr

/-- What uninitialised memory holds. -/
structure Memory (K V : Type) where
  tag : ℕ → UInt8
  entry : ℕ → Entry K V
  index : ℕ → ℕ

namespace Core

variable {K V : Type}

def unallocated (memory : Memory K V) : Core K V where
  tags := ⟨0, memory.tag⟩
  entries := ⟨0, memory.entry⟩
  realIndex := ⟨0, memory.index⟩
  maxLoadFactor := LoadFactor.def
  capacity := 0
  capacityMask := 0
  count := 0
  countGrowthLimit := 0
  capacityMultiplier := 0

def construct (c : Template K) (fuel : ℕ) (memory : Memory K V) : Exec (Core K V) :=
  (unallocated memory).resize c fuel minSize

section Calls

variable [DecidableEq K] (c : Template K)

def step (fuel : ℕ) (s : Core K V) : Op K V c.type → Exec (Result V × Core K V)
  | .add bUnique key value => do
    let ((ret, _), s) ← s.add c fuel bUnique false key value
    .ok (.bool ret, s)
  | .addOrUpdate key value _ => do
    let ((ret, _), s) ← s.add c fuel false true key value
    .ok (.bool ret, s)
  | .tryAdd key value _ => do
    let ((ret, index), s) ← s.add c fuel false true key value
    .ok (.added ret index, s)
  | .remove key _ => do
    let (ret, s) ← s.remove c fuel key
    .ok (.bool ret, s)
  | .contains key => do
    let found ← s.findEntry c fuel key
    .ok (.bool found.isSome, s)
  | .tryGetValue key _ => do
    match ← s.findEntry c fuel key with
    | some realIndex =>
      let entry ← s.entries.read realIndex
      .ok (.value (some entry.value), s)
    | none => .ok (.value none, s)
  | .tryGetIndex key _ => do
    let found ← s.findEntry c fuel key
    .ok (.index found, s)
  | .resize size => do
    let s ← s.resize c fuel size
    .ok (.void, s)
  | .rehash _ => do
    let s ← s.rehash c fuel
    .ok (.void, s)
  | .clear size => do
    let s ← s.clear c fuel size
    .ok (.void, s)
  | .setMaxLoadFactor mlf => .ok (.void, s.setMaxLoadFactor mlf)

/-- The call `op` on `s` returned `out.1`, left `t`, and `Count()` is then `out.2`. -/
def Call (s : Core K V) (op : Op K V c.type) (out : Result V × ℕ) (t : Core K V) : Prop :=
  ∃ fuel, step c fuel s op = .ok (out.1, t) ∧ out.2 = t.count

def Constructed (s : Core K V) : Prop := ∃ fuel memory, construct c fuel memory = .ok s

/-- The calls made one after the other, with what each returned and `Count()` after it. -/
def runOps (fuel : ℕ) : Core K V → List (Op K V c.type) →
    Exec (List (Op K V c.type × Result V × ℕ) × Core K V)
  | s, [] => .ok ([], s)
  | s, op :: rest => do
    let (ret, t) ← step c fuel s op
    let (trace, u) ← runOps fuel t rest
    .ok ((op, ret, t.count) :: trace, u)

variable {c}

theorem runOps_run {fuel : ℕ} {s u : Core K V} {ops : List (Op K V c.type)}
    {trace : List (Op K V c.type × Result V × ℕ)} (h : runOps c fuel s ops = .ok (trace, u)) :
    Transition.Run (Call c) s trace u ∧ trace.map Prod.fst = ops := by
  induction ops generalizing s trace with
  | nil =>
    simp only [runOps, Except.ok.injEq, Prod.mk.injEq] at h
    obtain ⟨rfl, rfl⟩ := h
    exact ⟨.nil _, rfl⟩
  | cons op rest ih =>
    obtain ⟨⟨ret, t⟩, hstep, h⟩ := Exec.bind_eq_ok.mp h
    obtain ⟨⟨trace', u'⟩, hrest, h⟩ := Exec.bind_eq_ok.mp h
    simp only [Except.ok.injEq, Prod.mk.injEq] at h
    obtain ⟨rfl, rfl⟩ := h
    obtain ⟨hrun, hops⟩ := ih hrest
    exact ⟨.cons ⟨fuel, hstep, rfl⟩ hrun, by simp [hops]⟩

/-- What calls on a new container return, each with `Count()` after it. -/
def observe (c : Template K) (fuel : ℕ) (memory : Memory K V) (ops : List (Op K V c.type)) :
    Exec (List (Result V × ℕ)) := do
  let s ← construct c fuel memory
  let (trace, _) ← runOps c fuel s ops
  .ok (trace.map Prod.snd)

theorem observe_run {fuel : ℕ} {memory : Memory K V} {ops : List (Op K V c.type)}
    {outs : List (Result V × ℕ)} (h : observe c fuel memory ops = .ok outs) :
    ∃ s trace t, Constructed c s ∧ Transition.Run (Call c) s trace t ∧
      trace.map Prod.fst = ops ∧ trace.map Prod.snd = outs := by
  obtain ⟨s, hstart, h⟩ := Exec.bind_eq_ok.mp h
  obtain ⟨⟨trace, t⟩, hrun, h⟩ := Exec.bind_eq_ok.mp h
  obtain ⟨hcalls, hops⟩ := runOps_run hrun
  exact ⟨s, trace, t, ⟨fuel, memory, hstart⟩, hcalls, hops, by simpa using h⟩

/-- The container that calls on a new one leave. -/
def after (c : Template K) (fuel : ℕ) (memory : Memory K V) (ops : List (Op K V c.type)) :
    Exec (Core K V) := do
  let s ← construct c fuel memory
  let (_, t) ← runOps c fuel s ops
  .ok t

theorem after_run {fuel : ℕ} {memory : Memory K V} {ops : List (Op K V c.type)} {t : Core K V}
    (h : after c fuel memory ops = .ok t) : ∃ s trace, Constructed c s ∧
      Transition.Run (Call c) s trace t ∧ trace.map Prod.fst = ops := by
  obtain ⟨s, hstart, h⟩ := Exec.bind_eq_ok.mp h
  obtain ⟨⟨trace, u⟩, hrun, h⟩ := Exec.bind_eq_ok.mp h
  obtain rfl : u = t := by simpa using h
  obtain ⟨hcalls, hops⟩ := runOps_run hrun
  exact ⟨s, trace, ⟨fuel, memory, hstart⟩, hcalls, hops⟩

theorem runOps_guard {ok : Core K V → Op K V c.type → Prop} {fuel : ℕ} {s u : Core K V}
    {ops : List (Op K V c.type)} {trace : List (Op K V c.type × Result V × ℕ)}
    (h : runOps c fuel s ops = .ok (trace, u))
    (hok : ∀ n first t op, runOps c fuel s (ops.take n) = .ok (first, t) → ops[n]? = some op →
      ok t op) :
    Transition.Run (Transition.guard ok (Call c)) s trace u := by
  induction ops generalizing s trace with
  | nil =>
    simp only [runOps, Except.ok.injEq, Prod.mk.injEq] at h
    obtain ⟨rfl, rfl⟩ := h
    exact .nil _
  | cons op rest ih =>
    obtain ⟨⟨ret, t⟩, hstep, h⟩ := Exec.bind_eq_ok.mp h
    obtain ⟨⟨trace', u'⟩, hrest, h⟩ := Exec.bind_eq_ok.mp h
    simp only [Except.ok.injEq, Prod.mk.injEq] at h
    obtain ⟨rfl, rfl⟩ := h
    refine .cons ⟨hok 0 [] s op rfl rfl, fuel, hstep, rfl⟩ (ih hrest ?_)
    intro n first v op' hfirst hop
    refine hok (n + 1) ((op, ret, t.count) :: first) v op' ?_ hop
    simp only [List.take_succ_cons, runOps, hstep, hfirst, Exec.ok_bind]

/-- A run of calls of which each is allowed in the state that those before it leave. -/
theorem observe_guard {ok : Core K V → Op K V c.type → Prop} {fuel : ℕ} {memory : Memory K V}
    {ops : List (Op K V c.type)} {outs : List (Result V × ℕ)}
    (h : observe c fuel memory ops = .ok outs)
    (hok : ∀ n t op, after c fuel memory (ops.take n) = .ok t → ops[n]? = some op → ok t op) :
    ∃ s trace t, Constructed c s ∧ Transition.Run (Transition.guard ok (Call c)) s trace t ∧
      trace.map Prod.fst = ops ∧ trace.map Prod.snd = outs := by
  obtain ⟨s, hstart, h⟩ := Exec.bind_eq_ok.mp h
  obtain ⟨⟨trace, t⟩, hrun, h⟩ := Exec.bind_eq_ok.mp h
  obtain ⟨-, hops⟩ := runOps_run hrun
  refine ⟨s, trace, t, ⟨fuel, memory, hstart⟩, runOps_guard hrun ?_, hops, by simpa using h⟩
  intro n first u op hfirst hop
  refine hok n u op ?_ hop
  simp only [after, hstart, hfirst, Exec.ok_bind]

end Calls

section Samples

/-- A container of numbers whose hashes are all the same. -/
abbrev constantHash (type : ContainerType) (mode : Mode) (bFix : Bool) : Template ℕ where
  type := type
  mode := mode
  bFix := bFix
  bDebug := true
  hasher _ := 0

def zeroedMemory : Memory ℕ ℕ where
  tag _ := 0
  entry _ := ⟨0, 0⟩
  index _ := 0

end Samples

end Core

end SimdHash
