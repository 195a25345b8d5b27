import Mathlib.Data.List.OfFn
import Mathlib.Logic.Function.Basic
import NativeBackend.Memory.Cell

namespace NativeBackend

inductive Access where
  | load (width : AccessWidth) (offset : Nat) (mode : ReadMode)
  | store (width : AccessWidth) (offset : Nat) (value : width.Value) (mode : WriteMode)
  | exchange (width : AccessWidth) (offset : Nat) (expect update : width.Value)
      (read : ReadMode) (write : WriteMode)

def Access.plain : Access → Access
  | .load width offset _ => .load width offset .plain
  | .store width offset value _ => .store width offset value .plain
  | .exchange width offset expect update _ _ => .exchange width offset expect update .plain .plain

def Access.width : Access → AccessWidth
  | .load width .. | .store width .. | .exchange width .. => width

inductive Answer where
  | value (width : AccessWidth) (found : width.Value)
  | stored
  | refused (error : MemoryError)

def Cell.access (c : Cell) : Access → Answer × Cell
  | .load width offset mode =>
    match c.load width offset mode with
    | .ok found => (.value width found, c)
    | .error e => (.refused e, c)
  | .store width offset value mode =>
    match c.store width offset value mode with
    | .ok next => (.stored, next)
    | .error e => (.refused e, c)
  | .exchange width offset expect update read write =>
    match c.exchange width offset expect update read write with
    | .ok (prior, next) => (.value width prior, next)
    | .error e => (.refused e, c)

inductive SlotOp (α : Type) where
  | read
  | write (value : α)
  | exchange (expect update : α)

/-- What an access asks of an array of booleans, and where: every byte but zero is true. Only an
access of 8 bits asks for anything. -/
def Access.onBooleans : Access → Option (Nat × SlotOp Bool)
  | .load .bits8 offset _ => some (offset, .read)
  | .store .bits8 offset value _ => some (offset, .write (value != 0))
  | .exchange .bits8 offset expect update _ _ =>
    some (offset, .exchange (expect != 0) (update != 0))
  | _ => none

def Access.onWords : Access → Option (Nat × SlotOp UInt64)
  | .load .bits64 offset _ => some (offset, .read)
  | .store .bits64 offset value _ => some (offset, .write value)
  | .exchange .bits64 offset expect update _ _ => some (offset, .exchange expect update)
  | _ => none

inductive PlainArray where
  | booleans {n : Nat} (slots : Fin n → Bool)
  | words {n : Nat} (slots : Fin n → UInt64)

namespace PlainArray

section Slots

variable {α : Type} {n : Nat}

def perform [DecidableEq α] (slots : Fin n → α) (i : Fin n) :
    SlotOp α → Option α × (Fin n → α)
  | .read => (some (slots i), slots)
  | .write value => (none, Function.update slots i value)
  | .exchange expect update =>
    (some (slots i), if slots i = expect then Function.update slots i update else slots)

def slotAt (n bytes offset : Nat) : Except MemoryError (Fin n) :=
  if offset % bytes ≠ 0 then .error (.misaligned offset bytes)
  else if h : offset / bytes < n then .ok ⟨offset / bytes, h⟩
  else .error (.outOfBounds offset (n * bytes))

/-- The answer of an array to what is asked of the slot at a byte offset, where `value` says how a
slot's value is told, and the array afterwards. -/
def respond [DecidableEq α] (bytes : Nat) (value : α → Answer) (slots : Fin n → α) (offset : Nat)
    (op : SlotOp α) : Answer × (Fin n → α) :=
  match slotAt n bytes offset with
  | .error e => (.refused e, slots)
  | .ok i => ((perform slots i op).1.elim .stored value, (perform slots i op).2)

def resize (zero : α) (slots : Fin n → α) (m : Nat) : Fin m → α :=
  fun i => if h : i.val < n then slots ⟨i, h⟩ else zero

end Slots

def access : PlainArray → Access → Answer × PlainArray
  | .booleans slots, x =>
    match x.onBooleans with
    | none => (.refused (.invalidAccess x.width "boolean array memory"), .booleans slots)
    | some (offset, op) =>
      (respond 1 (fun b => .value .bits8 b.toUInt8) slots offset op).map id .booleans
  | .words slots, x =>
    match x.onWords with
    | none => (.refused (.invalidAccess x.width "long array memory"), .words slots)
    | some (offset, op) => (respond 8 (.value .bits64) slots offset op).map id .words

/-- An array of as many booleans as asked for, or of words for as many bytes, rounded up. -/
def copy : PlainArray → Nat → PlainArray
  | .booleans slots, size => .booleans (resize false slots size)
  | .words slots, size => .words (resize 0 slots ((size + 7) / 8))

def cell : PlainArray → Cell
  | .booleans slots => .booleans (List.ofFn slots)
  | .words slots => .longs (List.ofFn slots)

end PlainArray

def Cell.contents : Cell → PlainArray
  | .booleans values => .booleans values.get
  | .longs values => .words values.get

@[simp] theorem Cell.cell_contents (c : Cell) : c.contents.cell = c := by
  cases c <;> simp [contents, PlainArray.cell]

theorem Cell.exchangeSlot_eq {α : Type} [DecidableEq α] (strategy : ExchangeStrategy)
    (current expect update : α) :
    exchangeSlot strategy current expect update =
      (current, if current = expect then update else current) := by
  cases strategy <;> simp only [exchangeSlot, swapIfEqual]
  split <;> rfl

namespace PlainArray

section Slots

variable {α : Type} {n : Nat}

theorem booleanAt_ofFn (slots : Fin n → Bool) (offset : Nat) :
    Cell.booleanAt (List.ofFn slots) offset = (slotAt n 1 offset).map slots := by
  by_cases h : offset < n <;> simp [Cell.booleanAt, slotAt, Nat.mod_one, h, Except.map]

theorem longAt_ofFn (slots : Fin n → UInt64) (offset : Nat) :
    Cell.longAt (List.ofFn slots) offset = (slotAt n 8 offset).map slots := by
  by_cases aligned : offset % 8 = 0
  · by_cases h : offset / 8 < n <;> simp [Cell.longAt, slotAt, aligned, h, Except.map]
  · simp [Cell.longAt, slotAt, aligned, Except.map]

theorem slotAt_val {bytes offset : Nat} {i : Fin n} (h : slotAt n bytes offset = .ok i) :
    i.val = offset / bytes := by
  simp only [slotAt] at h
  split at h
  · cases h
  · split at h <;> cases h
    rfl

theorem ofFn_set (slots : Fin n → α) (i : Fin n) (value : α) :
    (List.ofFn slots).set i value = List.ofFn (Function.update slots i value) := by
  apply List.ext_getElem (by simp)
  intro j hj _
  have bound : j < n := by simpa using hj
  by_cases same : i = ⟨j, bound⟩
  · subst same
    simp
  · have apart : i.val ≠ j := fun e => same (Fin.ext e)
    simp [apart, Function.update_of_ne (Ne.symm same)]

theorem ofFn_set_exchange [DecidableEq α] (slots : Fin n → α) (i : Fin n) (expect update : α) :
    (List.ofFn slots).set i (if slots i = expect then update else slots i) =
      List.ofFn (if slots i = expect then Function.update slots i update else slots) := by
  rw [ofFn_set]
  split
  · rfl
  · rw [Function.update_eq_self]

theorem ofFn_resize (zero : α) (slots : Fin n → α) (m : Nat) :
    List.ofFn (resize zero slots m) =
      (List.range m).map fun i => (List.ofFn slots).getD i zero := by
  apply List.ext_getElem (by simp)
  intro j _ _
  by_cases h : j < n <;> simp [resize, List.getD, h]

end Slots

theorem access_booleans {n : Nat} (slots : Fin n → Bool) (x : Access) :
    (booleans slots).cell.access x = ((booleans slots).access x).map id cell := by
  cases x with
  | load width offset mode =>
    cases width
    case bits8 =>
      simp only [cell, Cell.access, Cell.load, booleanAt_ofFn, access, Access.onBooleans, respond]
      cases slotAt n 1 offset <;> rfl
    all_goals rfl
  | store width offset value mode =>
    cases width
    case bits8 =>
      simp only [cell, Cell.access, Cell.store, booleanAt_ofFn, access, Access.onBooleans, respond]
      cases h : slotAt n 1 offset with
      | error e => rfl
      | ok i =>
        have at_i : offset = i.val := by simpa using (slotAt_val h).symm
        simp [Except.map, perform, at_i, ofFn_set, cell]
    all_goals rfl
  | exchange width offset expect update read write =>
    cases width
    case bits8 =>
      simp only [cell, Cell.access, Cell.exchange, booleanAt_ofFn, access, Access.onBooleans,
        respond, Cell.exchangeSlot_eq]
      cases h : slotAt n 1 offset with
      | error e => rfl
      | ok i =>
        have at_i : offset = i.val := by simpa using (slotAt_val h).symm
        simp [Except.map, perform, at_i, ofFn_set_exchange, cell]
    all_goals rfl

theorem access_words {n : Nat} (slots : Fin n → UInt64) (x : Access) :
    (words slots).cell.access x = ((words slots).access x).map id cell := by
  cases x with
  | load width offset mode =>
    cases width
    case bits64 =>
      simp only [cell, Cell.access, Cell.load, longAt_ofFn, access, Access.onWords, respond]
      cases slotAt n 8 offset <;> rfl
    all_goals rfl
  | store width offset value mode =>
    cases width
    case bits64 =>
      simp only [cell, Cell.access, Cell.store, longAt_ofFn, access, Access.onWords, respond]
      cases h : slotAt n 8 offset with
      | error e => rfl
      | ok i => simp [Except.map, perform, ← slotAt_val h, ofFn_set, cell]
    all_goals rfl
  | exchange width offset expect update read write =>
    cases width
    case bits64 =>
      simp only [cell, Cell.access, Cell.exchange, longAt_ofFn, access, Access.onWords, respond,
        Cell.exchangeSlot_eq]
      cases h : slotAt n 8 offset with
      | error e => rfl
      | ok i => simp [Except.map, perform, ← slotAt_val h, ofFn_set_exchange, cell]
    all_goals rfl

/-- One access of a cell is that access of the array it holds. -/
theorem cell_access (a : PlainArray) (x : Access) :
    a.cell.access x = (a.access x).map id cell := by
  cases a with
  | booleans slots => exact access_booleans slots x
  | words slots => exact access_words slots x

theorem cell_copy (a : PlainArray) (size : Nat) : a.cell.copy size = (a.copy size).cell := by
  cases a with
  | booleans slots => simp [cell, copy, Cell.copy, ofFn_resize]
  | words slots => simp [cell, copy, Cell.copy, ofFn_resize]

end PlainArray

structure Storage (σ : Type) where
  access : σ → Access → Answer × σ
  copy : σ → Nat → σ

def Cell.storage : Storage Cell := ⟨Cell.access, Cell.copy⟩

def PlainArray.storage : Storage PlainArray := ⟨PlainArray.access, PlainArray.copy⟩

namespace Storage

inductive Request where
  | access (number : Nat) (access : Access)
  | copy (number size : Nat)

def Request.plain : Request → Request
  | .access number x => .access number x.plain
  | .copy number size => .copy number size

def accessesTo (number : Nat) : List Request → List Access :=
  List.filterMap fun
    | .access k x => if k = number then some x else none
    | .copy .. => none

variable {σ τ : Type} (S : Storage σ) (T : Storage τ)

def step (held : List σ) : Request → Option Answer × List σ
  | .access number x =>
    match held[number]? with
    | none => (none, held)
    | some s => (some (S.access s x).1, held.set number (S.access s x).2)
  | .copy number size =>
    match held[number]? with
    | none => (none, held)
    | some s => (none, held ++ [S.copy s size])

def run (held : List σ) : List Request → List (Option Answer) × List σ
  | [] => ([], held)
  | r :: rest =>
    let (answer, next) := S.step held r
    let (answers, last) := run next rest
    (answer :: answers, last)

def after (s : σ) (accesses : List Access) : σ := accesses.foldl (fun s x => (S.access s x).2) s

variable {S T}

section Image

variable {f : σ → τ} (onAccess : ∀ s x, T.access (f s) x = (S.access s x).map id f)
  (onCopy : ∀ s size, T.copy (f s) size = f (S.copy s size))

include onAccess onCopy

theorem step_map (held : List σ) (r : Request) :
    T.step (held.map f) r = (S.step held r).map id (List.map f) := by
  cases r with
  | access number x =>
    cases h : held[number]? with
    | none => simp [step, h]
    | some s => simp [step, h, onAccess, List.map_set]
  | copy number size =>
    cases h : held[number]? with
    | none => simp [step, h]
    | some s => simp [step, h, onCopy]

theorem run_map (held : List σ) (requests : List Request) :
    T.run (held.map f) requests = (S.run held requests).map id (List.map f) := by
  induction requests generalizing held with
  | nil => rfl
  | cons r rest ih =>
    simp [run, step_map onAccess onCopy, ih]

end Image

theorem run_plain (unseen : ∀ s x, S.access s x.plain = S.access s x) (held : List σ)
    (requests : List Request) : S.run held (requests.map Request.plain) = S.run held requests := by
  induction requests generalizing held with
  | nil => rfl
  | cons r rest ih =>
    have one : S.step held r.plain = S.step held r := by
      cases r with
      | access number x => simp only [Request.plain, step, unseen]
      | copy number size => rfl
    simp only [List.map_cons, run, one, ih]

theorem step_getElem? {held : List σ} {number : Nat} {s : σ} (h : held[number]? = some s)
    (r : Request) : (S.step held r).2[number]? = some (S.after s (accessesTo number [r])) := by
  have bound : number < held.length := (List.getElem?_eq_some_iff.mp h).1
  cases r with
  | access k x =>
    by_cases same : k = number
    · subst same
      have own : accessesTo k [.access k x] = [x] := by simp [accessesTo]
      simp only [step, h, own, after, List.foldl_cons, List.foldl_nil, List.getElem?_set_self bound]
    · have other : accessesTo number [.access k x] = [] := by simp [accessesTo, same]
      simp only [step, other, after, List.foldl_nil]
      cases held[k]? with
      | none => exact h
      | some t => exact (List.getElem?_set_ne same).trans h
  | copy k size =>
    have other : accessesTo number [.copy k size] = [] := rfl
    simp only [step, other, after, List.foldl_nil]
    cases held[k]? with
    | none => exact h
    | some t => exact (List.getElem?_append_left bound).trans h

/-- Of one piece of storage a run leaves what its own accesses leave, whatever is asked of the
others and however often it is copied. -/
theorem run_getElem? {held : List σ} {number : Nat} {s : σ} (h : held[number]? = some s)
    (requests : List Request) :
    (S.run held requests).2[number]? = some (S.after s (accessesTo number requests)) := by
  induction requests generalizing held s with
  | nil => exact h
  | cons r rest ih =>
    have parts : accessesTo number (r :: rest) = accessesTo number [r] ++ accessesTo number rest :=
      List.filterMap_append (l := [r])
    calc (S.run held (r :: rest)).2[number]?
      _ = (S.run (S.step held r).2 rest).2[number]? := rfl
      _ = some (S.after (S.after s (accessesTo number [r])) (accessesTo number rest)) :=
        ih (step_getElem? h r)
      _ = some (S.after s (accessesTo number (r :: rest))) := by
        simp only [after, parts, List.foldl_append]

end Storage

@[simp] theorem Access.onBooleans_plain (x : Access) : x.plain.onBooleans = x.onBooleans := by
  cases x with
  | load width | store width | exchange width => cases width <;> rfl

@[simp] theorem Access.onWords_plain (x : Access) : x.plain.onWords = x.onWords := by
  cases x with
  | load width | store width | exchange width => cases width <;> rfl

@[simp] theorem Access.width_plain (x : Access) : x.plain.width = x.width := by
  cases x <;> rfl

theorem PlainArray.access_plain (a : PlainArray) (x : Access) : a.access x.plain = a.access x := by
  cases a <;> simp [access]

theorem Cell.access_plain (c : Cell) (x : Access) : c.access x.plain = c.access x := by
  rw [← c.cell_contents, PlainArray.cell_access, PlainArray.cell_access, PlainArray.access_plain]

/-- Cells are plain arrays to any requests: every answer and every content left is the array's, the
ordering asked for is never seen, and a cell and its copy go on apart, each as its own accesses have
it. -/
theorem Cell.run_as_plainArray (cells : List Cell) (requests : List Storage.Request) :
    (cells.map contents).map PlainArray.cell = cells ∧
    storage.run cells requests =
      (PlainArray.storage.run (cells.map contents) requests).map id (List.map PlainArray.cell) ∧
    storage.run cells (requests.map (·.plain)) = storage.run cells requests ∧
    ∀ (k : Fin cells.length) (size : Nat),
      (storage.run cells (.copy k size :: requests)).2[k.val]? =
        some (storage.after cells[k] (Storage.accessesTo k requests)) ∧
      (storage.run cells (.copy k size :: requests)).2[cells.length]? =
        some (storage.after (cells[k].copy size) (Storage.accessesTo cells.length requests)) := by
  have held : (cells.map contents).map PlainArray.cell = cells := by
    simp [Function.comp_def]
  refine ⟨held, ?_, Storage.run_plain access_plain cells requests, ?_⟩
  · conv_lhs => rw [← held]
    exact Storage.run_map PlainArray.cell_access PlainArray.cell_copy _ requests
  · intro k size
    have source : cells[k.val]? = some cells[k] := List.getElem?_eq_getElem k.isLt
    have copied : (storage.run cells (.copy k size :: requests)).2 =
        (storage.run (cells ++ [cells[k].copy size]) requests).2 := by
      simp only [Storage.run, Storage.step, source]
      rfl
    rw [copied]
    exact ⟨Storage.run_getElem? ((List.getElem?_append_left k.isLt).trans source) requests,
      Storage.run_getElem? List.getElem?_concat_length requests⟩

/-- Any byte but zero stands for true, also where it is expected. -/
example : Cell.access (.booleans [false, true]) (.exchange .bits8 1 7 0 .acquire .plain) =
    (.value .bits8 1, .booleans [false, false]) := rfl

end NativeBackend
