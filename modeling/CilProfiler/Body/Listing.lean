import CilProfiler.Body.Basic
import CilProfiler.Code.Listing

/-! # Body listing

The listing of a body shows its linked instructions, one a line, and then its exception
clauses with the labels of their ranges.
-/

namespace CilProfiler
namespace MethodBody

/-- Label of one end of a range; an open end, and a handle that was never created, is the end of
    the body. -/
def rangeLabel (body : MethodBody) (id : Option InstrId) : String :=
  match id.bind body.code.get? with
  | some item => offsetLabel item.offset
  | none => "end"

def clauseLine (body : MethodBody) (clause : ExceptionClause) : String :=
  let filter :=
    match clause.filterStart with
    | some start => " filter " ++ body.rangeLabel (some start)
    | none => ""
  let caught :=
    match clause.catchType with
    | some token => " catch " ++ token.text
    | none => ""
  clause.kind.name
    ++ " try " ++ body.rangeLabel (some clause.tryStart) ++ ".." ++ body.rangeLabel clause.tryEnd
    ++ " handler " ++ body.rangeLabel (some clause.handlerStart)
    ++ ".." ++ body.rangeLabel clause.handlerEnd ++ filter ++ caught

def listingLines (body : MethodBody) : List String :=
  "Instructions:" :: body.code.order.map body.code.line
    ++ "" :: "Exception handlers:" :: body.clauses.map body.clauseLine

def listing (body : MethodBody) : String :=
  String.join (body.listingLines.map (· ++ "\n"))

end MethodBody
end CilProfiler
