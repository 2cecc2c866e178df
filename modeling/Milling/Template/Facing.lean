/-!
Facing a plate: passes side by side over its upper face.
-/

namespace Milling.Template

def facingText : String :=
"; ===========================================
; FACE MILLING OPERATION
; Workpiece: 100 x 100 x 20 mm Aluminum
; Tool: 50mm Face Mill
; Depth of Cut: 1.0mm
; Stepover: 35mm (70%)
; ===========================================

G21        ; Metric units (mm)
G90        ; Absolute positioning
G17        ; XY plane selection
G54        ; Work coordinate system

; INITIALIZE
G0 Z25.0   ; Rapid to safe height
M3 S2000   ; Spindle ON, 2000 RPM
G4 P2      ; Dwell 2 seconds for spindle

; APPROACH
G0 X-30 Y15       ; Rapid to start position (outside workpiece)
G0 Z2.0           ; Rapid to clearance height
G1 Z-1.0 F150     ; Plunge to depth at slow feed

; PASS 1 - First row
G1 X130 Y15 F800  ; Cut across workpiece
G0 Z2.0           ; Rapid up
G0 X130 Y50       ; Rapid to next row start
G1 Z-1.0 F150     ; Plunge

; PASS 2 - Second row
G1 X-30 Y50 F800  ; Cut back
G0 Z2.0           ; Rapid up
G0 X-30 Y85       ; Rapid to next row start
G1 Z-1.0 F150     ; Plunge

; PASS 3 - Third row
G1 X130 Y85 F800  ; Cut across workpiece
G0 Z2.0           ; Rapid up

; RETRACT
G0 Z25.0          ; Rapid to safe height
G0 X0 Y0          ; Return to origin
M5                ; Spindle OFF
M30               ; Program end
"

end Milling.Template
