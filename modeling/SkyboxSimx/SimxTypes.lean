import Mathlib.Data.Finset.Card

/-!
# Records of the SIMX functional-unit back end

The enumerations and packets of `types.h` as the units of `func_unit.cpp` read
them. A trace keeps only the fields a unit inspects: operand values never reach
the back end. A lane mask (`BitVector<>` of `NUM_LSU_LANES` bits) is the finite
set of its set lanes, so `&= ~m` is set difference and `count()` is the
cardinality. Port operations and core callbacks are recorded as events.
-/

namespace SimxTypes

inductive AluType
  | arith | branch | syscall | imul | idiv
  deriving DecidableEq, Repr

inductive LsuType
  | load | store | fence
  deriving DecidableEq, Repr

inductive FpuType
  | fncp | fma | fdiv | fsqrt | fcvt
  deriving DecidableEq, Repr

inductive SfuType
  | tmc | wspawn | split | join | bar | pred | csrrw | csrrs | csrrc | tex | raster | om | cmov
  deriving DecidableEq, Repr

inductive ArbiterType
  | priority | roundRobin
  deriving DecidableEq, Repr

inductive AddrType
  | global | shared | io
  deriving DecidableEq, Repr

/-- `MAX_NUM_THREADS`, the width of a `ThreadMask`. -/
def maxNumThreads : Nat := 32

/-- The compile-time constants the units read. Both moduli are positive. -/
structure Config where
  issueWidth : Nat
  numLsuBlocks : Nat
  numLsuLanes : Nat
  /-- Capacity of each block's `pending_rd_reqs`. -/
  lsuQueueSize : Nat
  xlen : Nat
  latencyImul : Nat
  latencyFma : Nat
  latencyFdiv : Nat
  latencyFsqrt : Nat
  latencyFcvt : Nat
  issueWidth_pos : 0 < issueWidth
  numLsuBlocks_pos : 0 < numLsuBlocks
  /-- `HashTable(uint32_t capacity)`: the capacity of a pending table is a 32-bit count. -/
  lsuQueueSize_lt : lsuQueueSize < 2 ^ 32

/-- The configuration of the spec's concrete scenarios (`ISSUE_WIDTH = 2`, one LSU block, four
lanes, `XLEN = 32`, `LATENCY_IMUL = 3`), with two pending slots per block. -/
def scenarioConfig : Config where
  issueWidth := 2
  numLsuBlocks := 1
  numLsuLanes := 4
  lsuQueueSize := 2
  xlen := 32
  latencyImul := 3
  latencyFma := 4
  latencyFdiv := 16
  latencyFsqrt := 16
  latencyFcvt := 5
  issueWidth_pos := by decide
  numLsuBlocks_pos := by decide
  lsuQueueSize_lt := by decide

structure MemAddrSize where
  addr : Nat
  size : Nat
  deriving DecidableEq, Repr

/-- The payload behind `trace->data`, one constructor per concrete `ITraceData`. -/
inductive TraceData
  | none
  | lsu (memAddrs : List MemAddrSize)
  | sfu (arg1 arg2 : Nat)
  | raster (rasterIdx : Nat)
  | tex (texIdx : Nat)
  | om (omIdx : Nat)
  deriving DecidableEq, Repr

/-- The fields of `instr_trace_t` the units read; the sub-op union is one field per view. -/
structure Trace where
  uuid : Nat := 0
  cid : Nat := 0
  wid : Nat := 0
  pid : Nat := 0
  tmask : Nat := 0
  eop : Bool := true
  fetchStall : Bool := false
  aluType : AluType := .arith
  fpuType : FpuType := .fncp
  lsuType : LsuType := .load
  sfuType : SfuType := .tmc
  data : TraceData := .none
  deriving DecidableEq, Repr

instance : Inhabited Trace := ⟨{}⟩

structure LsuReq where
  mask : Finset Nat
  addrs : List Nat
  write : Bool
  tag : Nat
  cid : Nat
  uuid : Nat
  deriving DecidableEq

structure LsuRsp where
  mask : Finset Nat
  /-- `uint64_t`. -/
  tag : Nat
  cid : Nat := 0
  uuid : Nat := 0
  deriving DecidableEq

/-- The slot of `pending_rd_reqs` a response addresses: `HashTable::at` and `release` take a
`uint32_t`, so the 64-bit tag is cut to its low 32 bits. -/
def LsuRsp.slot (rsp : LsuRsp) : Nat := rsp.tag % 2 ^ 32

structure MemReq where
  addr : Nat := 0
  write : Bool := false
  type : AddrType := .global
  /-- `uint32_t`: every value is below `2 ^ 32`. -/
  tag : Nat := 0
  cid : Nat := 0
  uuid : Nat := 0
  deriving DecidableEq, Repr

structure MemRsp where
  /-- `uint64_t`. -/
  tag : Nat := 0
  cid : Nat := 0
  uuid : Nat := 0
  deriving DecidableEq, Repr

/-- The coprocessor families an SFU forwards to. -/
inductive Coproc
  | raster | tex | om
  deriving DecidableEq, Repr

/-- One observable action of a functional unit's tick, in program order. -/
inductive Event
  /-- `Inputs.at(iw).pop()`. -/
  | pop (iw : Nat) (trace : Trace)
  /-- `Outputs.at(iw).push(trace, delay)`. -/
  | push (iw : Nat) (trace : Trace) (delay : Nat)
  /-- `core_->resume(wid)`. -/
  | resume (wid : Nat)
  /-- `core_->wspawn(arg1, arg2)`. -/
  | wspawn (arg1 arg2 : Nat)
  /-- `core_->barrier(arg1, arg2, wid)`. -/
  | barrier (arg1 arg2 wid : Nat)
  /-- `lsu_demux_.at(block)->ReqIn.push(req)`. -/
  | request (block : Nat) (req : LsuReq)
  /-- `lsu_demux_.at(block)->RspIn.pop()` after reading `rsp`. -/
  | response (block : Nat) (rsp : LsuRsp)
  /-- `raster_units_/tex_units_/om_units_.at(idx)->Input.push(trace, delay)`. -/
  | forward (unit : Coproc) (idx : Nat) (trace : Trace) (delay : Nat)
  /-- `pending_rsps_[port]->pop()` of a coprocessor output. -/
  | collect (port : Nat) (trace : Trace)
  deriving DecidableEq

namespace Event

/-- The trace an event removes from an input queue. -/
def popped : Event → Option Trace
  | pop _ t => some t
  | _ => none

/-- The trace an event delivers to an output port. -/
def pushed : Event → Option Trace
  | push _ t _ => some t
  | _ => none

end Event

/-- Traces popped from the input queues along a log. -/
def poppedOf (log : List Event) : Multiset Trace := ↑(log.filterMap Event.popped)

/-- Traces pushed to the output ports along a log. -/
def pushedOf (log : List Event) : Multiset Trace := ↑(log.filterMap Event.pushed)

@[simp] theorem poppedOf_nil : poppedOf [] = 0 := rfl

@[simp] theorem pushedOf_nil : pushedOf [] = 0 := rfl

@[simp] theorem poppedOf_append (l l' : List Event) :
    poppedOf (l ++ l') = poppedOf l + poppedOf l' := by
  simp [poppedOf]

@[simp] theorem pushedOf_append (l l' : List Event) :
    pushedOf (l ++ l') = pushedOf l + pushedOf l' := by
  simp [pushedOf]

@[simp] theorem poppedOf_cons (e : Event) (l : List Event) :
    poppedOf (e :: l) = ↑e.popped.toList + poppedOf l := by
  cases h : e.popped <;>
    simp [poppedOf, List.filterMap_cons, h, ← Multiset.cons_coe, ← Multiset.singleton_add]

@[simp] theorem pushedOf_cons (e : Event) (l : List Event) :
    pushedOf (e :: l) = ↑e.pushed.toList + pushedOf l := by
  cases h : e.pushed <;>
    simp [pushedOf, List.filterMap_cons, h, ← Multiset.cons_coe, ← Multiset.singleton_add]

end SimxTypes
