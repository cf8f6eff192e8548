import SmaliPrune.Opcode.Basic

namespace SmaliPrune

namespace Traits

def leaves : Traits := {}
def on : Traits := { continues := true }
def sets : Traits := { on with setsRegister := true }
def setsPair : Traits := { sets with setsWide := true }
def raises : Traits := { throws := true }
def risks : Traits := { on with throws := true }
def risksResult : Traits := { risks with setsResult := true }
def risksSets : Traits := { sets with throws := true }
def risksSetsPair : Traits := { setsPair with throws := true }
def risksStatic : Traits := { risks with staticField := true }
def risksSetsStatic : Traits := { risksSets with staticField := true }
def risksSetsPairStatic : Traits := { risksSetsPair with staticField := true }

end Traits

namespace Opcode

def catalogue : List Opcode := [
  ⟨0x00,"nop",.f10x,.on,.nop⟩,
  ⟨0x01,"move",.f12x,.sets,.move⟩,
  ⟨0x02,"move/from16",.f22x,.sets,.move⟩,
  ⟨0x03,"move/16",.f32x,.sets,.move⟩,
  ⟨0x04,"move-wide",.f12x,.setsPair,.move⟩,
  ⟨0x05,"move-wide/from16",.f22x,.setsPair,.move⟩,
  ⟨0x06,"move-wide/16",.f32x,.setsPair,.move⟩,
  ⟨0x07,"move-object",.f12x,.sets,.move⟩,
  ⟨0x08,"move-object/from16",.f22x,.sets,.move⟩,
  ⟨0x09,"move-object/16",.f32x,.sets,.move⟩,
  ⟨0x0a,"move-result",.f11x,.sets,.moveResult⟩,
  ⟨0x0b,"move-result-wide",.f11x,.setsPair,.moveResult⟩,
  ⟨0x0c,"move-result-object",.f11x,.sets,.moveResult⟩,
  ⟨0x0d,"move-exception",.f11x,.sets,.moveException⟩,
  ⟨0x0e,"return-void",.f10x,.leaves,.returnVoid⟩,
  ⟨0x0f,"return",.f11x,.leaves,.returnValue⟩,
  ⟨0x10,"return-wide",.f11x,.leaves,.returnValue⟩,
  ⟨0x11,"return-object",.f11x,.leaves,.returnValue⟩,
  ⟨0x12,"const/4",.f11n,.sets,.constInt⟩,
  ⟨0x13,"const/16",.f21s,.sets,.constInt⟩,
  ⟨0x14,"const",.f31i,.sets,.constInt⟩,
  ⟨0x15,"const/high16",.f21ih,.sets,.constInt⟩,
  ⟨0x16,"const-wide/16",.f21s,.setsPair,.constLong⟩,
  ⟨0x17,"const-wide/32",.f31i,.setsPair,.constLong⟩,
  ⟨0x18,"const-wide",.f51l,.setsPair,.constLong⟩,
  ⟨0x19,"const-wide/high16",.f21lh,.setsPair,.constLong⟩,
  ⟨0x1a,"const-string",.f21c,.risksSets,.constString⟩,
  ⟨0x1b,"const-string/jumbo",.f31c,.risksSets,.constString⟩,
  ⟨0x1c,"const-class",.f21c,.risksSets,.constClass⟩,
  ⟨0x1d,"monitor-enter",.f11x,.risks,.monitor true⟩,
  ⟨0x1e,"monitor-exit",.f11x,.risks,.monitor false⟩,
  ⟨0x1f,"check-cast",.f21c,.risksSets,.checkCast⟩,
  ⟨0x20,"instance-of",.f22c,.risksSets,.instanceOf⟩,
  ⟨0x21,"array-length",.f12x,.risksSets,.arrayLength⟩,
  ⟨0x22,"new-instance",.f21c,.risksSets,.newInstance⟩,
  ⟨0x23,"new-array",.f22c,.risksSets,.newArray⟩,
  ⟨0x24,"filled-new-array",.f35c,.risksResult,.other⟩,
  ⟨0x25,"filled-new-array/range",.f3rc,.risksResult,.other⟩,
  ⟨0x26,"fill-array-data",.f31t,.on,.payload⟩,
  ⟨0x27,"throw",.f11x,.raises,.throw⟩,
  ⟨0x28,"goto",.f10t,.leaves,.goto⟩,
  ⟨0x29,"goto/16",.f20t,.leaves,.goto⟩,
  ⟨0x2a,"goto/32",.f30t,.leaves,.goto⟩,
  ⟨0x2b,"packed-switch",.f31t,.on,.payload⟩,
  ⟨0x2c,"sparse-switch",.f31t,.on,.payload⟩,
  ⟨0x2d,"cmpl-float",.f23x,.sets,.other⟩,
  ⟨0x2e,"cmpg-float",.f23x,.sets,.other⟩,
  ⟨0x2f,"cmpl-double",.f23x,.sets,.other⟩,
  ⟨0x30,"cmpg-double",.f23x,.sets,.other⟩,
  ⟨0x31,"cmp-long",.f23x,.sets,.other⟩,
  ⟨0x32,"if-eq",.f22t,.on,.ifPair .eq⟩,
  ⟨0x33,"if-ne",.f22t,.on,.ifPair .ne⟩,
  ⟨0x34,"if-lt",.f22t,.on,.ifPair .lt⟩,
  ⟨0x35,"if-ge",.f22t,.on,.ifPair .ge⟩,
  ⟨0x36,"if-gt",.f22t,.on,.ifPair .gt⟩,
  ⟨0x37,"if-le",.f22t,.on,.ifPair .le⟩,
  ⟨0x38,"if-eqz",.f21t,.on,.ifZero .eq⟩,
  ⟨0x39,"if-nez",.f21t,.on,.ifZero .ne⟩,
  ⟨0x3a,"if-ltz",.f21t,.on,.ifZero .lt⟩,
  ⟨0x3b,"if-gez",.f21t,.on,.ifZero .ge⟩,
  ⟨0x3c,"if-gtz",.f21t,.on,.ifZero .gt⟩,
  ⟨0x3d,"if-lez",.f21t,.on,.ifZero .le⟩,
  ⟨0x44,"aget",.f23x,.risksSets,.arrayGet "I"⟩,
  ⟨0x45,"aget-wide",.f23x,.risksSetsPair,.arrayGet "J"⟩,
  ⟨0x46,"aget-object",.f23x,.risksSets,.arrayGet "Ljava/lang/Object;"⟩,
  ⟨0x47,"aget-boolean",.f23x,.risksSets,.arrayGet "Z"⟩,
  ⟨0x48,"aget-byte",.f23x,.risksSets,.arrayGet "B"⟩,
  ⟨0x49,"aget-char",.f23x,.risksSets,.arrayGet "C"⟩,
  ⟨0x4a,"aget-short",.f23x,.risksSets,.arrayGet "S"⟩,
  ⟨0x4b,"aput",.f23x,.risks,.arrayPut⟩,
  ⟨0x4c,"aput-wide",.f23x,.risks,.arrayPut⟩,
  ⟨0x4d,"aput-object",.f23x,.risks,.arrayPut⟩,
  ⟨0x4e,"aput-boolean",.f23x,.risks,.arrayPut⟩,
  ⟨0x4f,"aput-byte",.f23x,.risks,.arrayPut⟩,
  ⟨0x50,"aput-char",.f23x,.risks,.arrayPut⟩,
  ⟨0x51,"aput-short",.f23x,.risks,.arrayPut⟩,
  ⟨0x52,"iget",.f22c,.risksSets,.fieldGet⟩,
  ⟨0x53,"iget-wide",.f22c,.risksSetsPair,.fieldGet⟩,
  ⟨0x54,"iget-object",.f22c,.risksSets,.fieldGet⟩,
  ⟨0x55,"iget-boolean",.f22c,.risksSets,.fieldGet⟩,
  ⟨0x56,"iget-byte",.f22c,.risksSets,.fieldGet⟩,
  ⟨0x57,"iget-char",.f22c,.risksSets,.fieldGet⟩,
  ⟨0x58,"iget-short",.f22c,.risksSets,.fieldGet⟩,
  ⟨0x59,"iput",.f22c,.risks,.fieldPut⟩,
  ⟨0x5a,"iput-wide",.f22c,.risks,.fieldPut⟩,
  ⟨0x5b,"iput-object",.f22c,.risks,.fieldPut⟩,
  ⟨0x5c,"iput-boolean",.f22c,.risks,.fieldPut⟩,
  ⟨0x5d,"iput-byte",.f22c,.risks,.fieldPut⟩,
  ⟨0x5e,"iput-char",.f22c,.risks,.fieldPut⟩,
  ⟨0x5f,"iput-short",.f22c,.risks,.fieldPut⟩,
  ⟨0x60,"sget",.f21c,.risksSetsStatic,.staticGet⟩,
  ⟨0x61,"sget-wide",.f21c,.risksSetsPairStatic,.staticGet⟩,
  ⟨0x62,"sget-object",.f21c,.risksSetsStatic,.staticGet⟩,
  ⟨0x63,"sget-boolean",.f21c,.risksSetsStatic,.staticGet⟩,
  ⟨0x64,"sget-byte",.f21c,.risksSetsStatic,.staticGet⟩,
  ⟨0x65,"sget-char",.f21c,.risksSetsStatic,.staticGet⟩,
  ⟨0x66,"sget-short",.f21c,.risksSetsStatic,.staticGet⟩,
  ⟨0x67,"sput",.f21c,.risksStatic,.staticPut⟩,
  ⟨0x68,"sput-wide",.f21c,.risksStatic,.staticPut⟩,
  ⟨0x69,"sput-object",.f21c,.risksStatic,.staticPut⟩,
  ⟨0x6a,"sput-boolean",.f21c,.risksStatic,.staticPut⟩,
  ⟨0x6b,"sput-byte",.f21c,.risksStatic,.staticPut⟩,
  ⟨0x6c,"sput-char",.f21c,.risksStatic,.staticPut⟩,
  ⟨0x6d,"sput-short",.f21c,.risksStatic,.staticPut⟩,
  ⟨0x6e,"invoke-virtual",.f35c,.risksResult,.invoke .virtual⟩,
  ⟨0x6f,"invoke-super",.f35c,.risksResult,.invoke .super⟩,
  ⟨0x70,"invoke-direct",.f35c,.risksResult,.invoke .direct⟩,
  ⟨0x71,"invoke-static",.f35c,.risksResult,.invoke .static⟩,
  ⟨0x72,"invoke-interface",.f35c,.risksResult,.invoke .interface⟩,
  ⟨0x74,"invoke-virtual/range",.f3rc,.risksResult,.invoke .virtual⟩,
  ⟨0x75,"invoke-super/range",.f3rc,.risksResult,.invoke .super⟩,
  ⟨0x76,"invoke-direct/range",.f3rc,.risksResult,.invoke .direct⟩,
  ⟨0x77,"invoke-static/range",.f3rc,.risksResult,.invoke .static⟩,
  ⟨0x78,"invoke-interface/range",.f3rc,.risksResult,.invoke .interface⟩,
  ⟨0x7b,"neg-int",.f12x,.sets,.other⟩,
  ⟨0x7c,"not-int",.f12x,.sets,.other⟩,
  ⟨0x7d,"neg-long",.f12x,.setsPair,.other⟩,
  ⟨0x7e,"not-long",.f12x,.setsPair,.other⟩,
  ⟨0x7f,"neg-float",.f12x,.sets,.other⟩,
  ⟨0x80,"neg-double",.f12x,.setsPair,.other⟩,
  ⟨0x81,"int-to-long",.f12x,.setsPair,.other⟩,
  ⟨0x82,"int-to-float",.f12x,.sets,.other⟩,
  ⟨0x83,"int-to-double",.f12x,.setsPair,.other⟩,
  ⟨0x84,"long-to-int",.f12x,.sets,.other⟩,
  ⟨0x85,"long-to-float",.f12x,.sets,.other⟩,
  ⟨0x86,"long-to-double",.f12x,.setsPair,.other⟩,
  ⟨0x87,"float-to-int",.f12x,.sets,.other⟩,
  ⟨0x88,"float-to-long",.f12x,.setsPair,.other⟩,
  ⟨0x89,"float-to-double",.f12x,.setsPair,.other⟩,
  ⟨0x8a,"double-to-int",.f12x,.sets,.other⟩,
  ⟨0x8b,"double-to-long",.f12x,.setsPair,.other⟩,
  ⟨0x8c,"double-to-float",.f12x,.sets,.other⟩,
  ⟨0x8d,"int-to-byte",.f12x,.sets,.other⟩,
  ⟨0x8e,"int-to-char",.f12x,.sets,.other⟩,
  ⟨0x8f,"int-to-short",.f12x,.sets,.other⟩,
  ⟨0x90,"add-int",.f23x,.sets,.binary .add .int false⟩,
  ⟨0x91,"sub-int",.f23x,.sets,.binary .sub .int false⟩,
  ⟨0x92,"mul-int",.f23x,.sets,.binary .mul .int false⟩,
  ⟨0x93,"div-int",.f23x,.risksSets,.binary .div .int false⟩,
  ⟨0x94,"rem-int",.f23x,.risksSets,.binary .rem .int false⟩,
  ⟨0x95,"and-int",.f23x,.sets,.binary .and .int false⟩,
  ⟨0x96,"or-int",.f23x,.sets,.binary .or .int false⟩,
  ⟨0x97,"xor-int",.f23x,.sets,.binary .xor .int false⟩,
  ⟨0x98,"shl-int",.f23x,.sets,.binary .shl .int false⟩,
  ⟨0x99,"shr-int",.f23x,.sets,.binary .shr .int false⟩,
  ⟨0x9a,"ushr-int",.f23x,.sets,.binary .ushr .int false⟩,
  ⟨0x9b,"add-long",.f23x,.setsPair,.binary .add .long false⟩,
  ⟨0x9c,"sub-long",.f23x,.setsPair,.binary .sub .long false⟩,
  ⟨0x9d,"mul-long",.f23x,.setsPair,.binary .mul .long false⟩,
  ⟨0x9e,"div-long",.f23x,.risksSetsPair,.binary .div .long false⟩,
  ⟨0x9f,"rem-long",.f23x,.risksSetsPair,.binary .rem .long false⟩,
  ⟨0xa0,"and-long",.f23x,.setsPair,.binary .and .long false⟩,
  ⟨0xa1,"or-long",.f23x,.setsPair,.binary .or .long false⟩,
  ⟨0xa2,"xor-long",.f23x,.setsPair,.binary .xor .long false⟩,
  ⟨0xa3,"shl-long",.f23x,.setsPair,.binary .shl .long false⟩,
  ⟨0xa4,"shr-long",.f23x,.setsPair,.binary .shr .long false⟩,
  ⟨0xa5,"ushr-long",.f23x,.setsPair,.binary .ushr .long false⟩,
  ⟨0xa6,"add-float",.f23x,.sets,.binary .add .float false⟩,
  ⟨0xa7,"sub-float",.f23x,.sets,.binary .sub .float false⟩,
  ⟨0xa8,"mul-float",.f23x,.sets,.binary .mul .float false⟩,
  ⟨0xa9,"div-float",.f23x,.sets,.binary .div .float false⟩,
  ⟨0xaa,"rem-float",.f23x,.sets,.binary .rem .float false⟩,
  ⟨0xab,"add-double",.f23x,.setsPair,.binary .add .double false⟩,
  ⟨0xac,"sub-double",.f23x,.setsPair,.binary .sub .double false⟩,
  ⟨0xad,"mul-double",.f23x,.setsPair,.binary .mul .double false⟩,
  ⟨0xae,"div-double",.f23x,.setsPair,.binary .div .double false⟩,
  ⟨0xaf,"rem-double",.f23x,.setsPair,.binary .rem .double false⟩,
  ⟨0xb0,"add-int/2addr",.f12x,.sets,.binary .add .int true⟩,
  ⟨0xb1,"sub-int/2addr",.f12x,.sets,.binary .sub .int true⟩,
  ⟨0xb2,"mul-int/2addr",.f12x,.sets,.binary .mul .int true⟩,
  ⟨0xb3,"div-int/2addr",.f12x,.risksSets,.binary .div .int true⟩,
  ⟨0xb4,"rem-int/2addr",.f12x,.risksSets,.binary .rem .int true⟩,
  ⟨0xb5,"and-int/2addr",.f12x,.sets,.binary .and .int true⟩,
  ⟨0xb6,"or-int/2addr",.f12x,.sets,.binary .or .int true⟩,
  ⟨0xb7,"xor-int/2addr",.f12x,.sets,.binary .xor .int true⟩,
  ⟨0xb8,"shl-int/2addr",.f12x,.sets,.binary .shl .int true⟩,
  ⟨0xb9,"shr-int/2addr",.f12x,.sets,.binary .shr .int true⟩,
  ⟨0xba,"ushr-int/2addr",.f12x,.sets,.binary .ushr .int true⟩,
  ⟨0xbb,"add-long/2addr",.f12x,.setsPair,.binary .add .long true⟩,
  ⟨0xbc,"sub-long/2addr",.f12x,.setsPair,.binary .sub .long true⟩,
  ⟨0xbd,"mul-long/2addr",.f12x,.setsPair,.binary .mul .long true⟩,
  ⟨0xbe,"div-long/2addr",.f12x,.risksSetsPair,.binary .div .long true⟩,
  ⟨0xbf,"rem-long/2addr",.f12x,.risksSetsPair,.binary .rem .long true⟩,
  ⟨0xc0,"and-long/2addr",.f12x,.setsPair,.binary .and .long true⟩,
  ⟨0xc1,"or-long/2addr",.f12x,.setsPair,.binary .or .long true⟩,
  ⟨0xc2,"xor-long/2addr",.f12x,.setsPair,.binary .xor .long true⟩,
  ⟨0xc3,"shl-long/2addr",.f12x,.setsPair,.binary .shl .long true⟩,
  ⟨0xc4,"shr-long/2addr",.f12x,.setsPair,.binary .shr .long true⟩,
  ⟨0xc5,"ushr-long/2addr",.f12x,.setsPair,.binary .ushr .long true⟩,
  ⟨0xc6,"add-float/2addr",.f12x,.sets,.binary .add .float true⟩,
  ⟨0xc7,"sub-float/2addr",.f12x,.sets,.binary .sub .float true⟩,
  ⟨0xc8,"mul-float/2addr",.f12x,.sets,.binary .mul .float true⟩,
  ⟨0xc9,"div-float/2addr",.f12x,.sets,.binary .div .float true⟩,
  ⟨0xca,"rem-float/2addr",.f12x,.sets,.binary .rem .float true⟩,
  ⟨0xcb,"add-double/2addr",.f12x,.setsPair,.binary .add .double true⟩,
  ⟨0xcc,"sub-double/2addr",.f12x,.setsPair,.binary .sub .double true⟩,
  ⟨0xcd,"mul-double/2addr",.f12x,.setsPair,.binary .mul .double true⟩,
  ⟨0xce,"div-double/2addr",.f12x,.setsPair,.binary .div .double true⟩,
  ⟨0xcf,"rem-double/2addr",.f12x,.setsPair,.binary .rem .double true⟩,
  ⟨0xd0,"add-int/lit16",.f22s,.sets,.binary .add .int false⟩,
  ⟨0xd1,"rsub-int",.f22s,.sets,.binary .rsub .int false⟩,
  ⟨0xd2,"mul-int/lit16",.f22s,.sets,.binary .mul .int false⟩,
  ⟨0xd3,"div-int/lit16",.f22s,.risksSets,.binary .div .int false⟩,
  ⟨0xd4,"rem-int/lit16",.f22s,.risksSets,.binary .rem .int false⟩,
  ⟨0xd5,"and-int/lit16",.f22s,.sets,.binary .and .int false⟩,
  ⟨0xd6,"or-int/lit16",.f22s,.sets,.binary .or .int false⟩,
  ⟨0xd7,"xor-int/lit16",.f22s,.sets,.binary .xor .int false⟩,
  ⟨0xd8,"add-int/lit8",.f22b,.sets,.binary .add .int false⟩,
  ⟨0xd9,"rsub-int/lit8",.f22b,.sets,.binary .rsub .int false⟩,
  ⟨0xda,"mul-int/lit8",.f22b,.sets,.binary .mul .int false⟩,
  ⟨0xdb,"div-int/lit8",.f22b,.risksSets,.binary .div .int false⟩,
  ⟨0xdc,"rem-int/lit8",.f22b,.risksSets,.binary .rem .int false⟩,
  ⟨0xdd,"and-int/lit8",.f22b,.sets,.binary .and .int false⟩,
  ⟨0xde,"or-int/lit8",.f22b,.sets,.binary .or .int false⟩,
  ⟨0xdf,"xor-int/lit8",.f22b,.sets,.binary .xor .int false⟩,
  ⟨0xe0,"shl-int/lit8",.f22b,.sets,.binary .shl .int false⟩,
  ⟨0xe1,"shr-int/lit8",.f22b,.sets,.binary .shr .int false⟩,
  ⟨0xe2,"ushr-int/lit8",.f22b,.sets,.binary .ushr .int false⟩]

def named? (name : String) : Option Opcode := catalogue.find? fun o => o.name == name

end Opcode
end SmaliPrune
