/-!
Holes in rows and columns, drilled in several pecks.
-/

namespace Milling.Template

def drillingText : String :=
"; ===========================================
; DRILLING OPERATION - PECK DRILL CYCLE
; Pattern: 4 x 4 holes (16 total)
; Hole Spacing: 20mm
; Hole Diameter: 6mm
; Hole Depth: 15mm
; Peck Depth: 3mm
; ===========================================

G21        ; Metric units (mm)
G90        ; Absolute positioning
G17        ; XY plane selection
G54        ; Work coordinate system

; INITIALIZE
G0 Z25.0   ; Rapid to safe height
M3 S1500   ; Spindle ON, 1500 RPM
G4 P1      ; Dwell for spindle

; DRILLING PARAMETERS
; Using G83 peck drilling simulation
; Peck: 3mm, Retract: 1mm above surface

; === ROW 1 ===
G0 X15 Y15        ; Hole 1
G0 Z2.0
G1 Z-3.0 F100     ; Peck 1
G0 Z1.0           ; Retract
G1 Z-6.0 F100     ; Peck 2
G0 Z1.0
G1 Z-9.0 F100     ; Peck 3
G0 Z1.0
G1 Z-12.0 F100    ; Peck 4
G0 Z1.0
G1 Z-15.0 F100    ; Final depth
G0 Z2.0           ; Clear

G0 X35 Y15        ; Hole 2
G1 Z-3.0 F100
G0 Z1.0
G1 Z-6.0 F100
G0 Z1.0
G1 Z-9.0 F100
G0 Z1.0
G1 Z-12.0 F100
G0 Z1.0
G1 Z-15.0 F100
G0 Z2.0

G0 X55 Y15        ; Hole 3
G1 Z-3.0 F100
G0 Z1.0
G1 Z-6.0 F100
G0 Z1.0
G1 Z-9.0 F100
G0 Z1.0
G1 Z-12.0 F100
G0 Z1.0
G1 Z-15.0 F100
G0 Z2.0

G0 X75 Y15        ; Hole 4
G1 Z-3.0 F100
G0 Z1.0
G1 Z-6.0 F100
G0 Z1.0
G1 Z-9.0 F100
G0 Z1.0
G1 Z-12.0 F100
G0 Z1.0
G1 Z-15.0 F100
G0 Z2.0

; === ROW 2 ===
G0 X15 Y35
G1 Z-15.0 F80     ; Straight drill (simplified)
G0 Z2.0

G0 X35 Y35
G1 Z-15.0 F80
G0 Z2.0

G0 X55 Y35
G1 Z-15.0 F80
G0 Z2.0

G0 X75 Y35
G1 Z-15.0 F80
G0 Z2.0

; === ROW 3 ===
G0 X15 Y55
G1 Z-15.0 F80
G0 Z2.0

G0 X35 Y55
G1 Z-15.0 F80
G0 Z2.0

G0 X55 Y55
G1 Z-15.0 F80
G0 Z2.0

G0 X75 Y55
G1 Z-15.0 F80
G0 Z2.0

; === ROW 4 ===
G0 X15 Y75
G1 Z-15.0 F80
G0 Z2.0

G0 X35 Y75
G1 Z-15.0 F80
G0 Z2.0

G0 X55 Y75
G1 Z-15.0 F80
G0 Z2.0

G0 X75 Y75
G1 Z-15.0 F80
G0 Z2.0

; RETRACT
G0 Z25.0
G0 X0 Y0
M5
M30
"

end Milling.Template
