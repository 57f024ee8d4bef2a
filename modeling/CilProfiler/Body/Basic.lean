import CilProfiler.Code.InstructionList

/-! # Method bodies

A body is the code of one method, its exception clauses and what its header declares.
-/

namespace CilProfiler

inductive ClauseKind where
  | catching
  | filter
  | finallyRun
  | fault
  deriving Repr, DecidableEq

def ClauseKind.name : ClauseKind → String
  | .catching => "Catch"
  | .filter => "Filter"
  | .finallyRun => "Finally"
  | .fault => "Fault"

/-- One exception handling clause. A range without an end reaches to the end of the body. -/
structure ExceptionClause where
  kind : ClauseKind
  tryStart : InstrId
  /-- First instruction after the protected ones. -/
  tryEnd : Option InstrId := none
  handlerStart : InstrId
  handlerEnd : Option InstrId := none
  filterStart : Option InstrId := none
  catchType : Option Token := none
  deriving Repr, DecidableEq

/-- Instructions that are entered with the exception object on the stack: the handler of a
    catch clause, the filter and the handler of a filter clause. -/
def ExceptionClause.exceptionStarts (clause : ExceptionClause) : List InstrId :=
  match clause.kind with
  | .catching => [clause.handlerStart]
  | .filter => clause.filterStart.toList ++ [clause.handlerStart]
  | .finallyRun | .fault => []

/-- Code, clauses and header of one method. -/
structure MethodBody where
  code : InstructionList := {}
  clauses : List ExceptionClause := []
  maxStack : Nat := 0
  initLocals : Bool := true
  localsToken : Option Token := none
  localsBlob : List UInt8 := []
  localsCount : Nat := 0
  deriving Repr, DecidableEq

namespace MethodBody

def empty : MethodBody := {}

def hasClauses (body : MethodBody) : Bool :=
  !body.clauses.isEmpty

def hasLocals (body : MethodBody) : Bool :=
  0 < body.localsCount

/-- Every instruction that is entered with an exception object, in clause order. -/
def exceptionStarts (body : MethodBody) : List InstrId :=
  body.clauses.flatMap (·.exceptionStarts)

end MethodBody
end CilProfiler
