import ODataClient.Command.Basic
import ODataClient.Expr.Rendering
import ODataClient.Model.Navigator

/-! What a command is compiled for: a protocol version, the navigations of a model, and
the options of the formatter. -/

namespace ODataClient

inductive UpdateMethod
  | patch
  | put
  deriving DecidableEq

structure AdapterOptions where
  escapeLiterals : Bool
  enumTypeFree : Bool
  strictTargets : Bool
  updateMethod : UpdateMethod
  deriving DecidableEq

def AdapterOptions.plain : AdapterOptions := ⟨false, false, false, .patch⟩

structure Adapter where
  version : Version
  navigator : Navigator
  options : AdapterOptions

namespace Adapter

def dialect (a : Adapter) : Dialect := a.version.dialect

def style (a : Adapter) : LiteralStyle :=
  match a.dialect with
  | .legacy => .legacy
  | .modern => .modern a.options.enumTypeFree

def renderer (a : Adapter) : Renderer := ⟨a.version, a.style, a.options.escapeLiterals⟩

def keyLiteral (a : Adapter) (v : Value) : String := a.style.written true v

end Adapter

structure Clause where
  name : String
  value : String
  deriving DecidableEq

def Clause.text (c : Clause) : String :=
  if c.value.isEmpty then c.name else c.name ++ "=" ++ c.value

end ODataClient
