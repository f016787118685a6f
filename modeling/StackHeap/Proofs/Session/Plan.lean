import StackHeap.Proofs.Store.Typed
import StackHeap.Session.Basic

/-! # A command is a plan and one operation

Carrying out a line reads the memory, but changes it in one place only.  All that comes before, the
reading, the typing and the lookup of the target, is a function of the line and the memory
(`plan`): it fails, or it names an operation.  Carrying out the line is then carrying out that
operation and telling of it (`follows_plan`).

A planned operation is well typed and concerns the innermost frame only (`proper_of_plan`), so what
is proved about operations holds for commands: the memory of a session is that of a run of
well-typed operations (`exists_operations`). -/

namespace StackHeap

open Command Store Typing

namespace Session

/-! ### Plans -/

/-- The operation that an initializer stands for. -/
def initialization (id : Nat) (name : String) : Initializer → Operation
  | .scalar type value => .declareScalar id name type value
  | .null type => .declareNull id name type
  | .copy type source => .declareCopy id name type source
  | .object category fields => .declareObject id name category fields
  | .array elementType elements => .declareArray id name elementType elements

/-- The operation that assigns a right-hand side to a variable. -/
def assignment (id : Nat) (target : String) (type : DeclaredType) :
    RightSide → Except CommandError Operation
  | .variable source => .ok (.assign id target source)
  | .null => .ok (.assignNull id target)
  | .construct category attributes =>
    if (Primitive.ofName? category).isSome then
      .error (.input (.illTyped (.notConstructible category)))
    else
      ((checkObject category attributes).mapError fun e => .input (.illTyped e)).map
        (.assignNew id target category)
  | .literal text =>
    match type.primitive? with
    | none => .error (.memory (.incompatible target type (.literal (String.ofList text))))
    | some p =>
      ((checkAssignable p text).mapError fun e => .input (.illTyped (.literal e))).map
        (.assignLiteral id target p)

/-- The operation that a line stands for. -/
def plan (line : List Char) (m : Memory) : Except CommandError Operation := do
  match ← (classify line).mapError fun e => .input (.malformed e) with
  | .enter name => return .enter name
  | .leave => return .leave
  | .assignment target value => do
    let t ← (m.lookup m.stack.current.id target).mapError .memory
    let side ← (rightSide value).mapError fun e => .input (.malformed e)
    assignment m.stack.current.id target t.type side
  | .declaration => do
    let d ← (process line).mapError .input
    return initialization m.stack.current.id d.name d.initializer

/-- Carries out an operation and tells of it. -/
def tell : Operation → MemoryM Report
  | .declareScalar id name type value =>
    .declared type.name name value.display <$> Memory.declareScalar id name type value
  | .declareNull id name type => .declared type.text name "null" <$> Memory.declareNull id name type
  | .declareObject id name category fields =>
    .constructed category name fields.length <$> Memory.declareObject id name category fields
  | .declareArray id name type elements =>
    .listed type.text name elements.length <$> Memory.declareArray id name type elements
  | .declareCopy id name type source =>
    .declared type.text name source <$> Memory.declareCopy id name type source
  | .assign id target source =>
    (fun es => .assigned target source (addresses es)) <$> Memory.assign id target source
  | .assignLiteral id target source value =>
    (fun _ => .assigned target value.display []) <$> Memory.assignLiteral id target source value
  | .assignNull id target =>
    (fun es => .assigned target "null" (addresses es)) <$> Memory.assignNull id target
  | .assignNew id target category fields =>
    .assignedNew target category <$> Memory.assignNew id target category fields
  | .enter name => .entered name <$> Memory.enter name
  | .leave => (fun r => .left r.1.name (addresses r.2)) <$> Memory.leave

theorem declare_eq (id : Nat) (d : TypedDeclaration) :
    declare id d = tell (initialization id d.name d.initializer) := by
  unfold declare
  cases d.initializer <;> rfl

/-! ### Carrying out a plan -/

section Execution

variable {α ε : Type} {m : Memory}

/-- A command only reads the memory, and its outcome is `q`. -/
def Reads (x : CommandM α) (q : Except CommandError α) (m : Memory) : Prop :=
  x m = match q with
    | .ok a => .ok a m
    | .error e => .error e m

/-- A command carries out the operation planned, if there is one. -/
def Follows (c : CommandM Report) (p : Except CommandError Operation) (m : Memory) : Prop :=
  c m = match p with
    | .ok op => onMemory (tell op) m
    | .error e => .error e m

theorem reads_checked (x : Except ε α) (f : ε → InputError) (m : Memory) :
    Reads (checked (x.mapError f)) (x.mapError fun e => .input (f e)) m := by
  cases x <;> rfl

theorem reads_ask (question : Memory → Except MemoryError α) (m : Memory) :
    Reads (onMemory (Memory.ask question)) ((question m).mapError .memory) m := by
  unfold Reads onMemory Memory.ask
  cases question m <;> rfl

theorem Follows.bind {x : CommandM α} {q : Except CommandError α} {k : α → CommandM Report}
    {p : α → Except CommandError Operation} (hx : Reads x q m) (hk : ∀ a, Follows (k a) (p a) m) :
    Follows (x >>= k) (q >>= p) m := by
  unfold Reads at hx
  unfold Follows
  cases q with
  | ok a =>
      simp only [Bind.bind, EStateM.bind, Except.bind, hx]
      exact hk a
  | error e => simp only [Bind.bind, EStateM.bind, Except.bind, hx]

/-- A last step after reading: what was read becomes an operation. -/
theorem Follows.map {x : CommandM α} {q : Except CommandError α} {k : α → CommandM Report}
    {f : α → Operation} (hx : Reads x q m) (hk : ∀ a, k a m = onMemory (tell (f a)) m) :
    Follows (x >>= k) (q.map f) m := by
  have h := Follows.bind (p := fun a => .ok (f a)) hx hk
  cases q <;> exact h

theorem onMemory_bind (x : MemoryM α) (f : α → Report) (m : Memory) :
    (do
      let a ← onMemory x
      return f a : CommandM Report) m = onMemory (f <$> x) m := by
  simp only [Bind.bind, EStateM.bind, onMemory, Functor.map, EStateM.map]
  cases x m <;> rfl

theorem follows_assignLiteral (id : Nat) (target : String) (type : DeclaredType)
    (text : List Char) (m : Memory) :
    Follows (assignLiteral id target type text) (assignment id target type (.literal text)) m := by
  unfold assignLiteral assignment
  dsimp only
  cases type.primitive? with
  | none => rfl
  | some p => exact .map (reads_checked _ _ m) fun v => onMemory_bind _ _ m

theorem follows_assignNew (id : Nat) (target category : String) (type : DeclaredType)
    (attributes : List Char) (m : Memory) :
    Follows (assignNew id target category attributes)
      (assignment id target type (.construct category attributes)) m := by
  unfold assignNew assignment
  dsimp only
  cases (Primitive.ofName? category).isSome with
  | true => rfl
  | false => exact .map (reads_checked _ _ m) fun v => onMemory_bind _ _ m

theorem follows_assign (target : String) (value : List Char) (m : Memory) :
    Follows (assign target value) (do
      let t ← (m.lookup m.stack.current.id target).mapError .memory
      let side ← (rightSide value).mapError fun e => .input (.malformed e)
      assignment m.stack.current.id target t.type side) m := by
  refine Follows.bind (reads_ask _ m) fun t => .bind (reads_checked _ _ m) fun side => ?_
  cases side with
  | «variable» source => exact onMemory_bind _ _ m
  | null => exact onMemory_bind _ _ m
  | construct category attributes => exact follows_assignNew _ _ _ _ _ m
  | literal text => exact follows_assignLiteral _ _ _ _ m

/-- **Carrying out a line is planning it and carrying out the operation planned.** -/
theorem follows_plan (line : List Char) (m : Memory) : Follows (execute line) (plan line m) m := by
  refine Follows.bind (reads_checked _ _ m) fun kind => ?_
  cases kind with
  | enter name => exact onMemory_bind _ _ m
  | leave => exact onMemory_bind _ _ m
  | assignment target value => exact follows_assign target value m
  | declaration =>
      have hp : Reads (checked (process line)) ((process line).mapError .input) m := by
        cases process line <;> rfl
      refine Follows.bind hp fun d => ?_
      show onMemory (declare m.stack.current.id d) m = _
      rw [declare_eq]
      rfl

theorem execute_of_plan_ok {line : List Char} {op : Operation} (h : plan line m = .ok op) :
    execute line m = onMemory (tell op) m := by
  have hf := follows_plan line m
  unfold Follows at hf
  rw [hf, h]

theorem execute_of_plan_error {line : List Char} {e : CommandError} (h : plan line m = .error e) :
    execute line m = .error e m := by
  have hf := follows_plan line m
  unfold Follows at hf
  rw [hf, h]

end Execution

/-! ### What is planned -/

section Planned

variable {m : Memory} {line : List Char} {op : Operation}

/-- A planned operation is well typed and looks into the innermost frame, if into any. -/
structure Proper (op : Operation) (id : Nat) : Prop where
  wellTyped : op.WellTyped
  frame : ∀ i, op.frame? = some i → i = id

theorem proper_initialization {id : Nat} {name : String} {d : Declaration} {i : Initializer}
    (h : initializer d = .ok i) : Proper (initialization id name i) id := by
  cases d with
  | scalar typeName _ value =>
      have hb := DeclaredType.isBasic_ofName typeName
      simp only [initializer, scalarInitializer, bind_eq_ok, mapError_eq_ok] at h
      obtain ⟨side, -, h⟩ := h
      split at h
      · cases h
        exact ⟨hb, fun _ he => (Option.some.inj he).symm⟩
      · obtain ⟨v, hv, rfl⟩ := map_eq_ok.1 (mapError_eq_ok.1 h)
        exact ⟨holds_of_checkAssignable hv, fun _ he => (Option.some.inj he).symm⟩
      · cases h
        exact ⟨hb, fun _ he => (Option.some.inj he).symm⟩
      · cases h
  | object typeName _ constructor? attributes =>
      simp only [initializer, objectInitializer, mapError_eq_ok] at h
      split at h
      · cases h
      · split at h
        · cases h
        · obtain ⟨fields, hf, rfl⟩ := map_eq_ok.1 h
          exact ⟨properFields_of_checkObject hf, fun _ he => (Option.some.inj he).symm⟩
  | array elementType _ elements =>
      simp only [initializer, mapError_eq_ok] at h
      obtain ⟨es, he, rfl⟩ := map_eq_ok.1 h
      exact ⟨⟨DeclaredType.isBasic_ofName elementType, properElements_of_checkArray he⟩,
        fun _ he => (Option.some.inj he).symm⟩

theorem proper_assignment {id : Nat} {target : String} {type : DeclaredType} {side : RightSide}
    (h : assignment id target type side = .ok op) : Proper op id := by
  cases side with
  | «variable» source =>
      cases h
      exact ⟨trivial, fun _ he => (Option.some.inj he).symm⟩
  | null =>
      cases h
      exact ⟨trivial, fun _ he => (Option.some.inj he).symm⟩
  | construct category attributes =>
      simp only [assignment] at h
      split at h
      · cases h
      · obtain ⟨fields, hf, rfl⟩ := map_eq_ok.1 h
        exact ⟨properFields_of_checkObject (mapError_eq_ok.1 hf),
          fun _ he => (Option.some.inj he).symm⟩
  | literal text =>
      simp only [assignment] at h
      split at h
      · cases h
      · obtain ⟨v, hv, rfl⟩ := map_eq_ok.1 h
        exact ⟨holds_of_checkAssignable (mapError_eq_ok.1 hv),
          fun _ he => (Option.some.inj he).symm⟩

/-- **What is planned is well typed and concerns the innermost frame only.** -/
theorem proper_of_plan (h : plan line m = .ok op) : Proper op m.stack.current.id := by
  simp only [plan, bind_eq_ok, mapError_eq_ok] at h
  obtain ⟨kind, -, h⟩ := h
  cases kind with
  | enter name =>
      cases h
      exact ⟨trivial, fun _ he => by cases he⟩
  | leave =>
      cases h
      exact ⟨trivial, fun _ he => by cases he⟩
  | assignment target value =>
      simp only [bind_eq_ok, mapError_eq_ok] at h
      obtain ⟨t, -, side, -, h⟩ := h
      exact proper_assignment h
  | declaration =>
      simp only [process, bind_eq_ok, mapError_eq_ok, return_eq_ok] at h
      obtain ⟨d, ⟨decl, -, i, hi, rfl⟩, rfl⟩ := h
      exact proper_initialization hi

end Planned

/-! ### Sessions -/

section Sessions

/-- Telling of an operation does not change what it does. -/
theorem tell_spec (op : Operation) (m : Memory) :
    match op.run m with
    | .ok _ m' => ∃ report, tell op m = .ok report m'
    | .error e m' => tell op m = .error e m' := by
  have hmap : ∀ {α : Type} (x : MemoryM α) (g : α → Answer) (f : α → Report),
      match (g <$> x) m with
      | .ok _ m' => ∃ report, (f <$> x) m = .ok report m'
      | .error e m' => (f <$> x) m = .error e m' := by
    intro α x g f
    simp only [Functor.map, EStateM.map]
    cases x m with
    | ok a m' => exact ⟨f a, rfl⟩
    | error e m' => rfl
  cases op <;> exact hmap _ _ _

variable (s : Session) (line : String)

/-- A line whose planning fails changes nothing but the transcript. -/
theorem run_of_plan_error {e : CommandError} (h : plan line.toList s.memory = .error e) :
    s.run line = (⟨s.memory, s.transcript ++ [⟨trimmed line, ⟨false, e.message⟩⟩]⟩,
      ⟨false, e.message⟩) := by
  simp only [run, execute_of_plan_error h]

/-- A line whose operation fails. -/
theorem run_of_error {op : Operation} {e : MemoryError} (h : plan line.toList s.memory = .ok op)
    (he : op.error? s.memory = some e) :
    s.run line = (⟨op.after s.memory,
      s.transcript ++ [⟨trimmed line, ⟨false, (CommandError.memory e).message⟩⟩]⟩,
      ⟨false, (CommandError.memory e).message⟩) := by
  unfold Operation.error? at he
  unfold Operation.after
  cases hr : op.run s.memory with
  | ok answer m =>
      rw [hr] at he
      cases he
  | error e' m =>
      rw [hr] at he
      obtain rfl : e' = e := Option.some.inj he
      have ht := tell_spec op s.memory
      rw [hr] at ht
      have hx : execute line.toList s.memory = .error (.memory e') m := by
        rw [execute_of_plan_ok h, onMemory, ht]
      simp only [run, hx]

/-- A line whose operation is carried out. -/
theorem run_of_ok {op : Operation} (h : plan line.toList s.memory = .ok op)
    (he : op.error? s.memory = none) :
    ∃ report : Report, s.run line = (⟨op.after s.memory,
      s.transcript ++ [⟨trimmed line, ⟨true, report.message⟩⟩]⟩, ⟨true, report.message⟩) := by
  unfold Operation.error? at he
  unfold Operation.after
  cases hr : op.run s.memory with
  | error e' m =>
      rw [hr] at he
      cases he
  | ok answer m =>
      have ht := tell_spec op s.memory
      rw [hr] at ht
      obtain ⟨report, ht⟩ := ht
      have hx : execute line.toList s.memory = .ok report m := by
        rw [execute_of_plan_ok h, onMemory, ht]
      exact ⟨report, by simp only [run, hx]⟩

/-- A line that is planned leaves the memory that its operation leaves. -/
theorem memory_of_plan {op : Operation} (h : plan line.toList s.memory = .ok op) :
    (s.run line).1.memory = op.after s.memory := by
  cases he : op.error? s.memory with
  | some e => rw [run_of_error s line h he]
  | none =>
      obtain ⟨report, hr⟩ := run_of_ok s line h he
      rw [hr]

/-- A line leaves the memory alone or carries out a proper operation. -/
theorem memory_run : (s.run line).1.memory = s.memory ∨
    ∃ op, Proper op s.memory.stack.current.id ∧ (s.run line).1.memory = op.after s.memory := by
  cases hp : plan line.toList s.memory with
  | error e => exact .inl (by rw [run_of_plan_error s line hp])
  | ok op => exact .inr ⟨op, proper_of_plan hp, memory_of_plan s line hp⟩

/-- **The memory of a session is that of a run of operations**, which have in common what all planned
operations have. -/
theorem exists_operations_of {C : Operation → Prop}
    (hplan : ∀ {cs : List Char} {m : Memory} {op : Operation}, plan cs m = .ok op → C op)
    (lines : List String) : ∃ ops : List Operation, (∀ op ∈ ops, C op) ∧
      (s.runAll lines).memory = s.memory.runAll ops := by
  induction lines generalizing s with
  | nil => exact ⟨[], fun op hop => absurd hop List.not_mem_nil, rfl⟩
  | cons line lines ih =>
      obtain ⟨ops, hc, hm⟩ := ih (s.run line).1
      cases hp : plan line.toList s.memory with
      | error e =>
          have he : (s.run line).1.memory = s.memory := by rw [run_of_plan_error s line hp]
          exact ⟨ops, hc, hm.trans (congrArg (Memory.runAll · ops) he)⟩
      | ok op =>
          have he := memory_of_plan s line hp
          exact ⟨op :: ops, List.forall_mem_cons.2 ⟨hplan hp, hc⟩,
            hm.trans (congrArg (Memory.runAll · ops) he)⟩

/-- The memory of a session is that of a run of well-typed operations. -/
theorem exists_operations (lines : List String) :
    ∃ ops : List Operation, (∀ op ∈ ops, op.WellTyped) ∧
      (s.runAll lines).memory = s.memory.runAll ops :=
  s.exists_operations_of (fun hp => (proper_of_plan hp).wellTyped) lines

end Sessions

end Session

end StackHeap
