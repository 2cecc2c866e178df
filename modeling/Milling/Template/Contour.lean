/-!
A profile of straight lines and arcs, cut in several layers.
-/

namespace Milling.Template

def contourText : String :=
"; ===========================================
; CONTOUR CUTTING OPERATION
; Profile: Complex shape with arcs
; Material: 80 x 80 x 10 mm
; Tool: 6mm End Mill
; Depth: 10mm (full through)
; ===========================================

G21        ; Metric units (mm)
G90        ; Absolute positioning
G17        ; XY plane selection
G54        ; Work coordinate system

; INITIALIZE
G0 Z20.0   ; Rapid to safe height
M3 S4000   ; Spindle ON, 4000 RPM
G4 P1      ; Dwell for spindle

; APPROACH
G0 X0 Y40          ; Start at left edge, mid height
G0 Z2.0            ; Clearance

; === LAYER 1: Z-2.5 ===
G1 Z-2.5 F100      ; Plunge

; Contour path
G1 X10 Y40 F400    ; Lead-in
G1 X10 Y10         ; Down left side
G2 X20 Y0 I10 J0   ; Arc to bottom
G1 X60 Y0          ; Bottom edge
G2 X70 Y10 I0 J10  ; Arc to right
G1 X70 Y30         ; Up right side
G3 X60 Y40 I-10 J0 ; Concave arc
G1 X50 Y40         ; Across top
G3 X40 Y50 I0 J10  ; Concave arc up
G1 X40 Y60         ; Up
G2 X30 Y70 I-10 J0 ; Arc
G1 X20 Y70         ; Across
G2 X10 Y60 I0 J-10 ; Arc down
G1 X10 Y40         ; Complete

G0 Z2.0

; === LAYER 2: Z-5.0 ===
G0 X10 Y40
G1 Z-5.0 F100

G1 X10 Y10 F400
G2 X20 Y0 I10 J0
G1 X60 Y0
G2 X70 Y10 I0 J10
G1 X70 Y30
G3 X60 Y40 I-10 J0
G1 X50 Y40
G3 X40 Y50 I0 J10
G1 X40 Y60
G2 X30 Y70 I-10 J0
G1 X20 Y70
G2 X10 Y60 I0 J-10
G1 X10 Y40

G0 Z2.0

; === LAYER 3: Z-7.5 ===
G0 X10 Y40
G1 Z-7.5 F100

G1 X10 Y10 F400
G2 X20 Y0 I10 J0
G1 X60 Y0
G2 X70 Y10 I0 J10
G1 X70 Y30
G3 X60 Y40 I-10 J0
G1 X50 Y40
G3 X40 Y50 I0 J10
G1 X40 Y60
G2 X30 Y70 I-10 J0
G1 X20 Y70
G2 X10 Y60 I0 J-10
G1 X10 Y40

G0 Z2.0

; === LAYER 4: Z-10.0 (THROUGH CUT) ===
G0 X10 Y40
G1 Z-10.0 F100

; Final finish pass - slower feed
G1 X10 Y10 F250
G2 X20 Y0 I10 J0
G1 X60 Y0
G2 X70 Y10 I0 J10
G1 X70 Y30
G3 X60 Y40 I-10 J0
G1 X50 Y40
G3 X40 Y50 I0 J10
G1 X40 Y60
G2 X30 Y70 I-10 J0
G1 X20 Y70
G2 X10 Y60 I0 J-10
G1 X10 Y40

; Lead-out
G1 X0 Y40

; RETRACT
G0 Z20.0
G0 X0 Y0
M5
M30
"

end Milling.Template
