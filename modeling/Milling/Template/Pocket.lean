/-!
A rectangular pocket, cut level by level from the middle outwards.
-/

namespace Milling.Template

def pocketText : String :=
"; ===========================================
; POCKET MILLING OPERATION
; Pocket: 60 x 40 x 8 mm
; Tool: 10mm End Mill
; Depth per Pass: 2.0mm
; Stepover: 6mm (60%)
; ===========================================

G21        ; Metric units (mm)
G90        ; Absolute positioning
G17        ; XY plane selection
G54        ; Work coordinate system

; INITIALIZE
G0 Z20.0   ; Rapid to safe height
M3 S3000   ; Spindle ON, 3000 RPM
G4 P1      ; Dwell for spindle

; POCKET START POSITION
G0 X20 Y20        ; Rapid to pocket corner
G0 Z2.0           ; Clearance height

; === LAYER 1: Z-2.0 ===
G1 Z-2.0 F100     ; Plunge

; Spiral outward
G1 X20 Y50 F600   ; Cut to corner
G1 X70 Y50        ; Cut along edge
G1 X70 Y20        ; Cut along edge
G1 X26 Y20        ; Cut along edge (leaving stepover)
G1 X26 Y44        ; Inner pass
G1 X64 Y44
G1 X64 Y26
G1 X32 Y26
G1 X32 Y38        ; Innermost pass
G1 X58 Y38
G1 X58 Y32
G1 X38 Y32

G0 Z2.0           ; Rapid up

; === LAYER 2: Z-4.0 ===
G0 X20 Y20        ; Return to start
G1 Z-4.0 F100     ; Plunge

G1 X20 Y50 F600
G1 X70 Y50
G1 X70 Y20
G1 X26 Y20
G1 X26 Y44
G1 X64 Y44
G1 X64 Y26
G1 X32 Y26
G1 X32 Y38
G1 X58 Y38
G1 X58 Y32
G1 X38 Y32

G0 Z2.0

; === LAYER 3: Z-6.0 ===
G0 X20 Y20
G1 Z-6.0 F100

G1 X20 Y50 F600
G1 X70 Y50
G1 X70 Y20
G1 X26 Y20
G1 X26 Y44
G1 X64 Y44
G1 X64 Y26
G1 X32 Y26
G1 X32 Y38
G1 X58 Y38
G1 X58 Y32
G1 X38 Y32

G0 Z2.0

; === LAYER 4: Z-8.0 (FINAL) ===
G0 X20 Y20
G1 Z-8.0 F100

G1 X20 Y50 F600
G1 X70 Y50
G1 X70 Y20
G1 X26 Y20
G1 X26 Y44
G1 X64 Y44
G1 X64 Y26
G1 X32 Y26
G1 X32 Y38
G1 X58 Y38
G1 X58 Y32
G1 X38 Y32

; FINISH PASS - Climb mill perimeter
G0 Z-8.0
G1 X20 Y20 F300
G1 X20 Y50
G1 X70 Y50
G1 X70 Y20
G1 X20 Y20

; RETRACT
G0 Z20.0
G0 X0 Y0
M5
M30
"

end Milling.Template
