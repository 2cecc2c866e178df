/-!
A small square pocket, shown when nothing else is loaded.
-/

namespace Milling.Template

def sampleText : String :=
"; Sample CNC Program - Square Pocket
; Units: mm
G21 ; Set to millimeters
G90 ; Absolute positioning
G17 ; XY plane selection

; Initialize
G0 Z5.0 ; Rapid to safe height
G0 X0 Y0 ; Rapid to origin

; Start cutting
M3 S12000 ; Spindle on
G0 X10 Y10 ; Move to start position
G1 Z-2.0 F100 ; Plunge

; Cut square pocket - Layer 1
G1 X50 Y10 F500
G1 X50 Y50
G1 X10 Y50
G1 X10 Y10

; Inner pass
G1 X20 Y20
G1 X40 Y20
G1 X40 Y40
G1 X20 Y40
G1 X20 Y20

; Circular pocket
G0 Z2.0
G0 X70 Y30
G1 Z-2.0 F100
G2 X70 Y30 I10 J0 F400

; Retract
G0 Z5.0
G0 X0 Y0

M5 ; Spindle off
M30 ; Program end
"

end Milling.Template
