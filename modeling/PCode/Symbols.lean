import PCode.Source
import PCode.Ty

namespace PCode

/-- Values by name; of two entries for one name the first counts. -/
abbrev Table (α : Type) := List (String × α)

namespace Table

variable {α : Type}

def get? (table : Table α) (name : String) : Option α :=
  (table.find? (·.1 == name)).map Prod.snd

def contains (table : Table α) (name : String) : Bool :=
  (table.get? name).isSome

def insert (table : Table α) (name : String) (value : α) : Table α :=
  (name, value) :: table

end Table

/-- The two kinds of symbols; one name may be used for both. -/
inductive SymbolKind where
  | function
  | type
deriving DecidableEq, Repr

/-- Declared symbols. An entry is never replaced. -/
structure Symbols where
  functions : Table Ty := []
  types : Table Ty := []

namespace Symbols

def empty : Symbols := {}

def ofKind (symbols : Symbols) : SymbolKind → Table Ty
  | .function => symbols.functions
  | .type => symbols.types

def get? (symbols : Symbols) (name : String) (kind : SymbolKind) : Option Ty :=
  (symbols.ofKind kind).get? name

/-- Adds a symbol, unless its name is taken among those of its kind. -/
def register? (symbols : Symbols) (name : String) (kind : SymbolKind) (ty : Ty) :
    Option Symbols :=
  if (symbols.ofKind kind).contains name then none
  else match kind with
    | .function => some { symbols with functions := symbols.functions.insert name ty }
    | .type => some { symbols with types := symbols.types.insert name ty }

def count (symbols : Symbols) (kind : SymbolKind) : Nat :=
  (symbols.ofKind kind).length

def isEmpty (symbols : Symbols) : Bool :=
  symbols.functions.isEmpty && symbols.types.isEmpty

end Symbols

abbrev Locals := Table Ty

/-- The parameters of a function or lambda, bound in order. -/
def Locals.bindAll (locals : Locals) : List (String × Ty) → Locals
  | [] => locals
  | (name, ty) :: params => Locals.bindAll (locals.insert name ty) params

/-- What checking has found: the symbols, where each function is defined, and the type that the
function being checked returns. -/
structure Context where
  symbols : Symbols := {}
  definitions : Table Span := []
  current : Option Ty := none

namespace Context

def empty : Context := {}

def function? (context : Context) (name : String) : Option Ty :=
  context.symbols.get? name .function

def record? (context : Context) (name : String) : Option Ty :=
  context.symbols.get? name .type

/-- The name of a record also names the function that builds it. -/
def isConstructor (context : Context) (name : String) : Bool :=
  (context.record? name).isSome

def isDefined (context : Context) (name : String) : Bool :=
  context.definitions.contains name

def withDefinition (context : Context) (name : String) (span : Span) : Context :=
  { context with definitions := context.definitions.insert name span }

/-- The context inside a function that returns this type. -/
def returning (context : Context) (ret : Option Ty) : Context :=
  { context with current := ret }

end Context

end PCode
