import Milling.Data.Datum
import Milling.Preferences.Fault
/-!
The elements of the view and which of them are shown.
-/

namespace Milling

inductive Element
  | grid
  | axes
  | rapidMoves
  | cuttingWidth
  | workpiece
  | toolPointer
deriving DecidableEq, Inhabited

namespace Element

def all : List Element :=
  [grid, axes, rapidMoves, cuttingWidth, workpiece, toolPointer]

def name : Element → String
  | grid => "grid"
  | axes => "axes"
  | rapidMoves => "rapid_moves"
  | cuttingWidth => "cutting_width"
  | workpiece => "workpiece"
  | toolPointer => "tool_pointer"

def ofName (s : String) : Except Fault Element :=
  match all.find? (name · == s) with
  | some e => .ok e
  | none => .error (.invalid "visibility" (.unknownElement s))

instance : Storable Element where
  encode e := .text e.name
  decode := Datum.choice? all name

end Element

/-- Which elements are shown. -/
structure Visibility where
  grid : Bool
  axes : Bool
  rapidMoves : Bool
  cuttingWidth : Bool
  workpiece : Bool
  toolPointer : Bool
deriving DecidableEq, Inhabited

namespace Visibility

def initial : Visibility := ⟨true, true, true, true, true, true⟩

def shows (v : Visibility) : Element → Bool
  | .grid => v.grid
  | .axes => v.axes
  | .rapidMoves => v.rapidMoves
  | .cuttingWidth => v.cuttingWidth
  | .workpiece => v.workpiece
  | .toolPointer => v.toolPointer

def toggle (v : Visibility) : Element → Visibility
  | .grid => { v with grid := !v.grid }
  | .axes => { v with axes := !v.axes }
  | .rapidMoves => { v with rapidMoves := !v.rapidMoves }
  | .cuttingWidth => { v with cuttingWidth := !v.cuttingWidth }
  | .workpiece => { v with workpiece := !v.workpiece }
  | .toolPointer => { v with toolPointer := !v.toolPointer }

instance : Storable Visibility where
  encode v := .record (Element.all.map fun e => (e.name, encode (v.shows e)))
  decode d := do
    let [grid, axes, rapidMoves, cuttingWidth, workpiece, toolPointer] ←
      d.fields? (Element.all.map Element.name) true | none
    some
      ⟨← Datum.withDefault initial.grid grid, ← Datum.withDefault initial.axes axes,
        ← Datum.withDefault initial.rapidMoves rapidMoves,
        ← Datum.withDefault initial.cuttingWidth cuttingWidth,
        ← Datum.withDefault initial.workpiece workpiece,
        ← Datum.withDefault initial.toolPointer toolPointer⟩

end Visibility

end Milling
