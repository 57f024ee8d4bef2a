/-! # Method names

A traced method is named by its declaring type and its name. A generic method also carries the
names of its parameters, and an instantiation of it the type arguments in their place; the
generic definition itself has none.
-/

namespace CilProfiler

structure MethodName where
  declaringType : String
  name : String
  /-- Names of the generic parameters; empty if the method is not generic. -/
  genericParameters : List String := []
  genericArguments : List String := []
  deriving Repr, DecidableEq

namespace MethodName

/-- Methods are ordered field by field, texts by code points and lists lexicographically. -/
protected def compare (a b : MethodName) : Ordering :=
  (compare a.declaringType b.declaringType).then <|
  (compare a.name b.name).then <|
  (compare a.genericParameters b.genericParameters).then <|
  compare a.genericArguments b.genericArguments

instance : Ord MethodName :=
  ⟨MethodName.compare⟩

def parameterized (method : MethodName) (parameters : List String) : MethodName :=
  { method with genericParameters := parameters }

/-- The generic definition; a method that is no instantiation is its own. -/
def definition (method : MethodName) : MethodName :=
  { method with genericArguments := [] }

def instantiation (method : MethodName) (arguments : List String) : MethodName :=
  { method.definition with genericArguments := arguments }

def isGeneric (method : MethodName) : Bool :=
  !method.genericParameters.isEmpty

def isInstantiation (method : MethodName) : Bool :=
  method.isGeneric && !method.genericArguments.isEmpty

/-- Generic list that is shown: the arguments, or the parameters where there are none. -/
def shownGenerics (method : MethodName) : List String :=
  if method.genericArguments = [] then method.genericParameters else method.genericArguments

/-- Written form: type, dot, name, and the shown generic list in angle brackets. -/
def text (method : MethodName) : String :=
  let name := method.declaringType ++ "." ++ method.name
  match method.shownGenerics with
  | [] => name
  | shown => name ++ "<" ++ ", ".intercalate shown ++ ">"

def sort (methods : List MethodName) : List MethodName :=
  methods.mergeSort fun a b => (compare a b).isLE

end MethodName
end CilProfiler
