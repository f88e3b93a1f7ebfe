import Std.Data.HashMap

namespace CilSsa.Text

def triples : Nat → Nat → List (Nat × Nat × Nat)
  | 0, _ => []
  | count + 1, row =>
    triples count (row / 0x1000000000000000) ++
      [(row / 0x10000000000 % 0x100000, row / 0x100000 % 0x100000, row % 0x100000)]

def tableOf (rows : List Nat) : List (Nat × Nat × Nat) :=
  (rows.flatMap (triples 6)).filter fun e ↦ e.1 != 0

/-- A character with its canonical decomposition; `composes` is false where the decomposition is
one-way. -/
structure Decomposition where
  char : Nat
  parts : List Nat
  composes : Bool

def Decomposition.ofTriple : Nat × Nat × Nat → Decomposition
  | (c, a, b) => ⟨c % 0x80000, if b = 0 then [a] else [a, b], c < 0x80000⟩

/-- The canonical decompositions, Hangul syllables apart, in the order of the characters. -/
@[irreducible] def decompositions : List Decomposition := (tableOf
  [0x000C0_00041_00300_000C1_00041_00301_000C2_00041_00302_000C3_00041_00303_000C4_00041_00308_000C5_00041_0030A,
   0x000C7_00043_00327_000C8_00045_00300_000C9_00045_00301_000CA_00045_00302_000CB_00045_00308_000CC_00049_00300,
   0x000CD_00049_00301_000CE_00049_00302_000CF_00049_00308_000D1_0004E_00303_000D2_0004F_00300_000D3_0004F_00301,
   0x000D4_0004F_00302_000D5_0004F_00303_000D6_0004F_00308_000D9_00055_00300_000DA_00055_00301_000DB_00055_00302,
   0x000DC_00055_00308_000DD_00059_00301_000E0_00061_00300_000E1_00061_00301_000E2_00061_00302_000E3_00061_00303,
   0x000E4_00061_00308_000E5_00061_0030A_000E7_00063_00327_000E8_00065_00300_000E9_00065_00301_000EA_00065_00302,
   0x000EB_00065_00308_000EC_00069_00300_000ED_00069_00301_000EE_00069_00302_000EF_00069_00308_000F1_0006E_00303,
   0x000F2_0006F_00300_000F3_0006F_00301_000F4_0006F_00302_000F5_0006F_00303_000F6_0006F_00308_000F9_00075_00300,
   0x000FA_00075_00301_000FB_00075_00302_000FC_00075_00308_000FD_00079_00301_000FF_00079_00308_00100_00041_00304,
   0x00101_00061_00304_00102_00041_00306_00103_00061_00306_00104_00041_00328_00105_00061_00328_00106_00043_00301,
   0x00107_00063_00301_00108_00043_00302_00109_00063_00302_0010A_00043_00307_0010B_00063_00307_0010C_00043_0030C,
   0x0010D_00063_0030C_0010E_00044_0030C_0010F_00064_0030C_00112_00045_00304_00113_00065_00304_00114_00045_00306,
   0x00115_00065_00306_00116_00045_00307_00117_00065_00307_00118_00045_00328_00119_00065_00328_0011A_00045_0030C,
   0x0011B_00065_0030C_0011C_00047_00302_0011D_00067_00302_0011E_00047_00306_0011F_00067_00306_00120_00047_00307,
   0x00121_00067_00307_00122_00047_00327_00123_00067_00327_00124_00048_00302_00125_00068_00302_00128_00049_00303,
   0x00129_00069_00303_0012A_00049_00304_0012B_00069_00304_0012C_00049_00306_0012D_00069_00306_0012E_00049_00328,
   0x0012F_00069_00328_00130_00049_00307_00134_0004A_00302_00135_0006A_00302_00136_0004B_00327_00137_0006B_00327,
   0x00139_0004C_00301_0013A_0006C_00301_0013B_0004C_00327_0013C_0006C_00327_0013D_0004C_0030C_0013E_0006C_0030C,
   0x00143_0004E_00301_00144_0006E_00301_00145_0004E_00327_00146_0006E_00327_00147_0004E_0030C_00148_0006E_0030C,
   0x0014C_0004F_00304_0014D_0006F_00304_0014E_0004F_00306_0014F_0006F_00306_00150_0004F_0030B_00151_0006F_0030B,
   0x00154_00052_00301_00155_00072_00301_00156_00052_00327_00157_00072_00327_00158_00052_0030C_00159_00072_0030C,
   0x0015A_00053_00301_0015B_00073_00301_0015C_00053_00302_0015D_00073_00302_0015E_00053_00327_0015F_00073_00327,
   0x00160_00053_0030C_00161_00073_0030C_00162_00054_00327_00163_00074_00327_00164_00054_0030C_00165_00074_0030C,
   0x00168_00055_00303_00169_00075_00303_0016A_00055_00304_0016B_00075_00304_0016C_00055_00306_0016D_00075_00306,
   0x0016E_00055_0030A_0016F_00075_0030A_00170_00055_0030B_00171_00075_0030B_00172_00055_00328_00173_00075_00328,
   0x00174_00057_00302_00175_00077_00302_00176_00059_00302_00177_00079_00302_00178_00059_00308_00179_0005A_00301,
   0x0017A_0007A_00301_0017B_0005A_00307_0017C_0007A_00307_0017D_0005A_0030C_0017E_0007A_0030C_001A0_0004F_0031B,
   0x001A1_0006F_0031B_001AF_00055_0031B_001B0_00075_0031B_001CD_00041_0030C_001CE_00061_0030C_001CF_00049_0030C,
   0x001D0_00069_0030C_001D1_0004F_0030C_001D2_0006F_0030C_001D3_00055_0030C_001D4_00075_0030C_001D5_000DC_00304,
   0x001D6_000FC_00304_001D7_000DC_00301_001D8_000FC_00301_001D9_000DC_0030C_001DA_000FC_0030C_001DB_000DC_00300,
   0x001DC_000FC_00300_001DE_000C4_00304_001DF_000E4_00304_001E0_00226_00304_001E1_00227_00304_001E2_000C6_00304,
   0x001E3_000E6_00304_001E6_00047_0030C_001E7_00067_0030C_001E8_0004B_0030C_001E9_0006B_0030C_001EA_0004F_00328,
   0x001EB_0006F_00328_001EC_001EA_00304_001ED_001EB_00304_001EE_001B7_0030C_001EF_00292_0030C_001F0_0006A_0030C,
   0x001F4_00047_00301_001F5_00067_00301_001F8_0004E_00300_001F9_0006E_00300_001FA_000C5_00301_001FB_000E5_00301,
   0x001FC_000C6_00301_001FD_000E6_00301_001FE_000D8_00301_001FF_000F8_00301_00200_00041_0030F_00201_00061_0030F,
   0x00202_00041_00311_00203_00061_00311_00204_00045_0030F_00205_00065_0030F_00206_00045_00311_00207_00065_00311,
   0x00208_00049_0030F_00209_00069_0030F_0020A_00049_00311_0020B_00069_00311_0020C_0004F_0030F_0020D_0006F_0030F,
   0x0020E_0004F_00311_0020F_0006F_00311_00210_00052_0030F_00211_00072_0030F_00212_00052_00311_00213_00072_00311,
   0x00214_00055_0030F_00215_00075_0030F_00216_00055_00311_00217_00075_00311_00218_00053_00326_00219_00073_00326,
   0x0021A_00054_00326_0021B_00074_00326_0021E_00048_0030C_0021F_00068_0030C_00226_00041_00307_00227_00061_00307,
   0x00228_00045_00327_00229_00065_00327_0022A_000D6_00304_0022B_000F6_00304_0022C_000D5_00304_0022D_000F5_00304,
   0x0022E_0004F_00307_0022F_0006F_00307_00230_0022E_00304_00231_0022F_00304_00232_00059_00304_00233_00079_00304,
   0x80340_00300_00000_80341_00301_00000_80343_00313_00000_80344_00308_00301_80374_002B9_00000_8037E_0003B_00000,
   0x00385_000A8_00301_00386_00391_00301_80387_000B7_00000_00388_00395_00301_00389_00397_00301_0038A_00399_00301,
   0x0038C_0039F_00301_0038E_003A5_00301_0038F_003A9_00301_00390_003CA_00301_003AA_00399_00308_003AB_003A5_00308,
   0x003AC_003B1_00301_003AD_003B5_00301_003AE_003B7_00301_003AF_003B9_00301_003B0_003CB_00301_003CA_003B9_00308,
   0x003CB_003C5_00308_003CC_003BF_00301_003CD_003C5_00301_003CE_003C9_00301_003D3_003D2_00301_003D4_003D2_00308,
   0x00400_00415_00300_00401_00415_00308_00403_00413_00301_00407_00406_00308_0040C_0041A_00301_0040D_00418_00300,
   0x0040E_00423_00306_00419_00418_00306_00439_00438_00306_00450_00435_00300_00451_00435_00308_00453_00433_00301,
   0x00457_00456_00308_0045C_0043A_00301_0045D_00438_00300_0045E_00443_00306_00476_00474_0030F_00477_00475_0030F,
   0x004C1_00416_00306_004C2_00436_00306_004D0_00410_00306_004D1_00430_00306_004D2_00410_00308_004D3_00430_00308,
   0x004D6_00415_00306_004D7_00435_00306_004DA_004D8_00308_004DB_004D9_00308_004DC_00416_00308_004DD_00436_00308,
   0x004DE_00417_00308_004DF_00437_00308_004E2_00418_00304_004E3_00438_00304_004E4_00418_00308_004E5_00438_00308,
   0x004E6_0041E_00308_004E7_0043E_00308_004EA_004E8_00308_004EB_004E9_00308_004EC_0042D_00308_004ED_0044D_00308,
   0x004EE_00423_00304_004EF_00443_00304_004F0_00423_00308_004F1_00443_00308_004F2_00423_0030B_004F3_00443_0030B,
   0x004F4_00427_00308_004F5_00447_00308_004F8_0042B_00308_004F9_0044B_00308_00622_00627_00653_00623_00627_00654,
   0x00624_00648_00654_00625_00627_00655_00626_0064A_00654_006C0_006D5_00654_006C2_006C1_00654_006D3_006D2_00654,
   0x00929_00928_0093C_00931_00930_0093C_00934_00933_0093C_80958_00915_0093C_80959_00916_0093C_8095A_00917_0093C,
   0x8095B_0091C_0093C_8095C_00921_0093C_8095D_00922_0093C_8095E_0092B_0093C_8095F_0092F_0093C_009CB_009C7_009BE,
   0x009CC_009C7_009D7_809DC_009A1_009BC_809DD_009A2_009BC_809DF_009AF_009BC_80A33_00A32_00A3C_80A36_00A38_00A3C,
   0x80A59_00A16_00A3C_80A5A_00A17_00A3C_80A5B_00A1C_00A3C_80A5E_00A2B_00A3C_00B48_00B47_00B56_00B4B_00B47_00B3E,
   0x00B4C_00B47_00B57_80B5C_00B21_00B3C_80B5D_00B22_00B3C_00B94_00B92_00BD7_00BCA_00BC6_00BBE_00BCB_00BC7_00BBE,
   0x00BCC_00BC6_00BD7_00C48_00C46_00C56_00CC0_00CBF_00CD5_00CC7_00CC6_00CD5_00CC8_00CC6_00CD6_00CCA_00CC6_00CC2,
   0x00CCB_00CCA_00CD5_00D4A_00D46_00D3E_00D4B_00D47_00D3E_00D4C_00D46_00D57_00DDA_00DD9_00DCA_00DDC_00DD9_00DCF,
   0x00DDD_00DDC_00DCA_00DDE_00DD9_00DDF_80F43_00F42_00FB7_80F4D_00F4C_00FB7_80F52_00F51_00FB7_80F57_00F56_00FB7,
   0x80F5C_00F5B_00FB7_80F69_00F40_00FB5_80F73_00F71_00F72_80F75_00F71_00F74_80F76_00FB2_00F80_80F78_00FB3_00F80,
   0x80F81_00F71_00F80_80F93_00F92_00FB7_80F9D_00F9C_00FB7_80FA2_00FA1_00FB7_80FA7_00FA6_00FB7_80FAC_00FAB_00FB7,
   0x80FB9_00F90_00FB5_01026_01025_0102E_01B06_01B05_01B35_01B08_01B07_01B35_01B0A_01B09_01B35_01B0C_01B0B_01B35,
   0x01B0E_01B0D_01B35_01B12_01B11_01B35_01B3B_01B3A_01B35_01B3D_01B3C_01B35_01B40_01B3E_01B35_01B41_01B3F_01B35,
   0x01B43_01B42_01B35_01E00_00041_00325_01E01_00061_00325_01E02_00042_00307_01E03_00062_00307_01E04_00042_00323,
   0x01E05_00062_00323_01E06_00042_00331_01E07_00062_00331_01E08_000C7_00301_01E09_000E7_00301_01E0A_00044_00307,
   0x01E0B_00064_00307_01E0C_00044_00323_01E0D_00064_00323_01E0E_00044_00331_01E0F_00064_00331_01E10_00044_00327,
   0x01E11_00064_00327_01E12_00044_0032D_01E13_00064_0032D_01E14_00112_00300_01E15_00113_00300_01E16_00112_00301,
   0x01E17_00113_00301_01E18_00045_0032D_01E19_00065_0032D_01E1A_00045_00330_01E1B_00065_00330_01E1C_00228_00306,
   0x01E1D_00229_00306_01E1E_00046_00307_01E1F_00066_00307_01E20_00047_00304_01E21_00067_00304_01E22_00048_00307,
   0x01E23_00068_00307_01E24_00048_00323_01E25_00068_00323_01E26_00048_00308_01E27_00068_00308_01E28_00048_00327,
   0x01E29_00068_00327_01E2A_00048_0032E_01E2B_00068_0032E_01E2C_00049_00330_01E2D_00069_00330_01E2E_000CF_00301,
   0x01E2F_000EF_00301_01E30_0004B_00301_01E31_0006B_00301_01E32_0004B_00323_01E33_0006B_00323_01E34_0004B_00331,
   0x01E35_0006B_00331_01E36_0004C_00323_01E37_0006C_00323_01E38_01E36_00304_01E39_01E37_00304_01E3A_0004C_00331,
   0x01E3B_0006C_00331_01E3C_0004C_0032D_01E3D_0006C_0032D_01E3E_0004D_00301_01E3F_0006D_00301_01E40_0004D_00307,
   0x01E41_0006D_00307_01E42_0004D_00323_01E43_0006D_00323_01E44_0004E_00307_01E45_0006E_00307_01E46_0004E_00323,
   0x01E47_0006E_00323_01E48_0004E_00331_01E49_0006E_00331_01E4A_0004E_0032D_01E4B_0006E_0032D_01E4C_000D5_00301,
   0x01E4D_000F5_00301_01E4E_000D5_00308_01E4F_000F5_00308_01E50_0014C_00300_01E51_0014D_00300_01E52_0014C_00301,
   0x01E53_0014D_00301_01E54_00050_00301_01E55_00070_00301_01E56_00050_00307_01E57_00070_00307_01E58_00052_00307,
   0x01E59_00072_00307_01E5A_00052_00323_01E5B_00072_00323_01E5C_01E5A_00304_01E5D_01E5B_00304_01E5E_00052_00331,
   0x01E5F_00072_00331_01E60_00053_00307_01E61_00073_00307_01E62_00053_00323_01E63_00073_00323_01E64_0015A_00307,
   0x01E65_0015B_00307_01E66_00160_00307_01E67_00161_00307_01E68_01E62_00307_01E69_01E63_00307_01E6A_00054_00307,
   0x01E6B_00074_00307_01E6C_00054_00323_01E6D_00074_00323_01E6E_00054_00331_01E6F_00074_00331_01E70_00054_0032D,
   0x01E71_00074_0032D_01E72_00055_00324_01E73_00075_00324_01E74_00055_00330_01E75_00075_00330_01E76_00055_0032D,
   0x01E77_00075_0032D_01E78_00168_00301_01E79_00169_00301_01E7A_0016A_00308_01E7B_0016B_00308_01E7C_00056_00303,
   0x01E7D_00076_00303_01E7E_00056_00323_01E7F_00076_00323_01E80_00057_00300_01E81_00077_00300_01E82_00057_00301,
   0x01E83_00077_00301_01E84_00057_00308_01E85_00077_00308_01E86_00057_00307_01E87_00077_00307_01E88_00057_00323,
   0x01E89_00077_00323_01E8A_00058_00307_01E8B_00078_00307_01E8C_00058_00308_01E8D_00078_00308_01E8E_00059_00307,
   0x01E8F_00079_00307_01E90_0005A_00302_01E91_0007A_00302_01E92_0005A_00323_01E93_0007A_00323_01E94_0005A_00331,
   0x01E95_0007A_00331_01E96_00068_00331_01E97_00074_00308_01E98_00077_0030A_01E99_00079_0030A_01E9B_0017F_00307,
   0x01EA0_00041_00323_01EA1_00061_00323_01EA2_00041_00309_01EA3_00061_00309_01EA4_000C2_00301_01EA5_000E2_00301,
   0x01EA6_000C2_00300_01EA7_000E2_00300_01EA8_000C2_00309_01EA9_000E2_00309_01EAA_000C2_00303_01EAB_000E2_00303,
   0x01EAC_01EA0_00302_01EAD_01EA1_00302_01EAE_00102_00301_01EAF_00103_00301_01EB0_00102_00300_01EB1_00103_00300,
   0x01EB2_00102_00309_01EB3_00103_00309_01EB4_00102_00303_01EB5_00103_00303_01EB6_01EA0_00306_01EB7_01EA1_00306,
   0x01EB8_00045_00323_01EB9_00065_00323_01EBA_00045_00309_01EBB_00065_00309_01EBC_00045_00303_01EBD_00065_00303,
   0x01EBE_000CA_00301_01EBF_000EA_00301_01EC0_000CA_00300_01EC1_000EA_00300_01EC2_000CA_00309_01EC3_000EA_00309,
   0x01EC4_000CA_00303_01EC5_000EA_00303_01EC6_01EB8_00302_01EC7_01EB9_00302_01EC8_00049_00309_01EC9_00069_00309,
   0x01ECA_00049_00323_01ECB_00069_00323_01ECC_0004F_00323_01ECD_0006F_00323_01ECE_0004F_00309_01ECF_0006F_00309,
   0x01ED0_000D4_00301_01ED1_000F4_00301_01ED2_000D4_00300_01ED3_000F4_00300_01ED4_000D4_00309_01ED5_000F4_00309,
   0x01ED6_000D4_00303_01ED7_000F4_00303_01ED8_01ECC_00302_01ED9_01ECD_00302_01EDA_001A0_00301_01EDB_001A1_00301,
   0x01EDC_001A0_00300_01EDD_001A1_00300_01EDE_001A0_00309_01EDF_001A1_00309_01EE0_001A0_00303_01EE1_001A1_00303,
   0x01EE2_001A0_00323_01EE3_001A1_00323_01EE4_00055_00323_01EE5_00075_00323_01EE6_00055_00309_01EE7_00075_00309,
   0x01EE8_001AF_00301_01EE9_001B0_00301_01EEA_001AF_00300_01EEB_001B0_00300_01EEC_001AF_00309_01EED_001B0_00309,
   0x01EEE_001AF_00303_01EEF_001B0_00303_01EF0_001AF_00323_01EF1_001B0_00323_01EF2_00059_00300_01EF3_00079_00300,
   0x01EF4_00059_00323_01EF5_00079_00323_01EF6_00059_00309_01EF7_00079_00309_01EF8_00059_00303_01EF9_00079_00303,
   0x01F00_003B1_00313_01F01_003B1_00314_01F02_01F00_00300_01F03_01F01_00300_01F04_01F00_00301_01F05_01F01_00301,
   0x01F06_01F00_00342_01F07_01F01_00342_01F08_00391_00313_01F09_00391_00314_01F0A_01F08_00300_01F0B_01F09_00300,
   0x01F0C_01F08_00301_01F0D_01F09_00301_01F0E_01F08_00342_01F0F_01F09_00342_01F10_003B5_00313_01F11_003B5_00314,
   0x01F12_01F10_00300_01F13_01F11_00300_01F14_01F10_00301_01F15_01F11_00301_01F18_00395_00313_01F19_00395_00314,
   0x01F1A_01F18_00300_01F1B_01F19_00300_01F1C_01F18_00301_01F1D_01F19_00301_01F20_003B7_00313_01F21_003B7_00314,
   0x01F22_01F20_00300_01F23_01F21_00300_01F24_01F20_00301_01F25_01F21_00301_01F26_01F20_00342_01F27_01F21_00342,
   0x01F28_00397_00313_01F29_00397_00314_01F2A_01F28_00300_01F2B_01F29_00300_01F2C_01F28_00301_01F2D_01F29_00301,
   0x01F2E_01F28_00342_01F2F_01F29_00342_01F30_003B9_00313_01F31_003B9_00314_01F32_01F30_00300_01F33_01F31_00300,
   0x01F34_01F30_00301_01F35_01F31_00301_01F36_01F30_00342_01F37_01F31_00342_01F38_00399_00313_01F39_00399_00314,
   0x01F3A_01F38_00300_01F3B_01F39_00300_01F3C_01F38_00301_01F3D_01F39_00301_01F3E_01F38_00342_01F3F_01F39_00342,
   0x01F40_003BF_00313_01F41_003BF_00314_01F42_01F40_00300_01F43_01F41_00300_01F44_01F40_00301_01F45_01F41_00301,
   0x01F48_0039F_00313_01F49_0039F_00314_01F4A_01F48_00300_01F4B_01F49_00300_01F4C_01F48_00301_01F4D_01F49_00301,
   0x01F50_003C5_00313_01F51_003C5_00314_01F52_01F50_00300_01F53_01F51_00300_01F54_01F50_00301_01F55_01F51_00301,
   0x01F56_01F50_00342_01F57_01F51_00342_01F59_003A5_00314_01F5B_01F59_00300_01F5D_01F59_00301_01F5F_01F59_00342,
   0x01F60_003C9_00313_01F61_003C9_00314_01F62_01F60_00300_01F63_01F61_00300_01F64_01F60_00301_01F65_01F61_00301,
   0x01F66_01F60_00342_01F67_01F61_00342_01F68_003A9_00313_01F69_003A9_00314_01F6A_01F68_00300_01F6B_01F69_00300,
   0x01F6C_01F68_00301_01F6D_01F69_00301_01F6E_01F68_00342_01F6F_01F69_00342_01F70_003B1_00300_81F71_003AC_00000,
   0x01F72_003B5_00300_81F73_003AD_00000_01F74_003B7_00300_81F75_003AE_00000_01F76_003B9_00300_81F77_003AF_00000,
   0x01F78_003BF_00300_81F79_003CC_00000_01F7A_003C5_00300_81F7B_003CD_00000_01F7C_003C9_00300_81F7D_003CE_00000,
   0x01F80_01F00_00345_01F81_01F01_00345_01F82_01F02_00345_01F83_01F03_00345_01F84_01F04_00345_01F85_01F05_00345,
   0x01F86_01F06_00345_01F87_01F07_00345_01F88_01F08_00345_01F89_01F09_00345_01F8A_01F0A_00345_01F8B_01F0B_00345,
   0x01F8C_01F0C_00345_01F8D_01F0D_00345_01F8E_01F0E_00345_01F8F_01F0F_00345_01F90_01F20_00345_01F91_01F21_00345,
   0x01F92_01F22_00345_01F93_01F23_00345_01F94_01F24_00345_01F95_01F25_00345_01F96_01F26_00345_01F97_01F27_00345,
   0x01F98_01F28_00345_01F99_01F29_00345_01F9A_01F2A_00345_01F9B_01F2B_00345_01F9C_01F2C_00345_01F9D_01F2D_00345,
   0x01F9E_01F2E_00345_01F9F_01F2F_00345_01FA0_01F60_00345_01FA1_01F61_00345_01FA2_01F62_00345_01FA3_01F63_00345,
   0x01FA4_01F64_00345_01FA5_01F65_00345_01FA6_01F66_00345_01FA7_01F67_00345_01FA8_01F68_00345_01FA9_01F69_00345,
   0x01FAA_01F6A_00345_01FAB_01F6B_00345_01FAC_01F6C_00345_01FAD_01F6D_00345_01FAE_01F6E_00345_01FAF_01F6F_00345,
   0x01FB0_003B1_00306_01FB1_003B1_00304_01FB2_01F70_00345_01FB3_003B1_00345_01FB4_003AC_00345_01FB6_003B1_00342,
   0x01FB7_01FB6_00345_01FB8_00391_00306_01FB9_00391_00304_01FBA_00391_00300_81FBB_00386_00000_01FBC_00391_00345,
   0x81FBE_003B9_00000_01FC1_000A8_00342_01FC2_01F74_00345_01FC3_003B7_00345_01FC4_003AE_00345_01FC6_003B7_00342,
   0x01FC7_01FC6_00345_01FC8_00395_00300_81FC9_00388_00000_01FCA_00397_00300_81FCB_00389_00000_01FCC_00397_00345,
   0x01FCD_01FBF_00300_01FCE_01FBF_00301_01FCF_01FBF_00342_01FD0_003B9_00306_01FD1_003B9_00304_01FD2_003CA_00300,
   0x81FD3_00390_00000_01FD6_003B9_00342_01FD7_003CA_00342_01FD8_00399_00306_01FD9_00399_00304_01FDA_00399_00300,
   0x81FDB_0038A_00000_01FDD_01FFE_00300_01FDE_01FFE_00301_01FDF_01FFE_00342_01FE0_003C5_00306_01FE1_003C5_00304,
   0x01FE2_003CB_00300_81FE3_003B0_00000_01FE4_003C1_00313_01FE5_003C1_00314_01FE6_003C5_00342_01FE7_003CB_00342,
   0x01FE8_003A5_00306_01FE9_003A5_00304_01FEA_003A5_00300_81FEB_0038E_00000_01FEC_003A1_00314_01FED_000A8_00300,
   0x81FEE_00385_00000_81FEF_00060_00000_01FF2_01F7C_00345_01FF3_003C9_00345_01FF4_003CE_00345_01FF6_003C9_00342,
   0x01FF7_01FF6_00345_01FF8_0039F_00300_81FF9_0038C_00000_01FFA_003A9_00300_81FFB_0038F_00000_01FFC_003A9_00345,
   0x81FFD_000B4_00000_82000_02002_00000_82001_02003_00000_82126_003A9_00000_8212A_0004B_00000_8212B_000C5_00000,
   0x0219A_02190_00338_0219B_02192_00338_021AE_02194_00338_021CD_021D0_00338_021CE_021D4_00338_021CF_021D2_00338,
   0x02204_02203_00338_02209_02208_00338_0220C_0220B_00338_02224_02223_00338_02226_02225_00338_02241_0223C_00338,
   0x02244_02243_00338_02247_02245_00338_02249_02248_00338_02260_0003D_00338_02262_02261_00338_0226D_0224D_00338,
   0x0226E_0003C_00338_0226F_0003E_00338_02270_02264_00338_02271_02265_00338_02274_02272_00338_02275_02273_00338,
   0x02278_02276_00338_02279_02277_00338_02280_0227A_00338_02281_0227B_00338_02284_02282_00338_02285_02283_00338,
   0x02288_02286_00338_02289_02287_00338_022AC_022A2_00338_022AD_022A8_00338_022AE_022A9_00338_022AF_022AB_00338,
   0x022E0_0227C_00338_022E1_0227D_00338_022E2_02291_00338_022E3_02292_00338_022EA_022B2_00338_022EB_022B3_00338,
   0x022EC_022B4_00338_022ED_022B5_00338_82329_03008_00000_8232A_03009_00000_82ADC_02ADD_00338_0304C_0304B_03099,
   0x0304E_0304D_03099_03050_0304F_03099_03052_03051_03099_03054_03053_03099_03056_03055_03099_03058_03057_03099,
   0x0305A_03059_03099_0305C_0305B_03099_0305E_0305D_03099_03060_0305F_03099_03062_03061_03099_03065_03064_03099,
   0x03067_03066_03099_03069_03068_03099_03070_0306F_03099_03071_0306F_0309A_03073_03072_03099_03074_03072_0309A,
   0x03076_03075_03099_03077_03075_0309A_03079_03078_03099_0307A_03078_0309A_0307C_0307B_03099_0307D_0307B_0309A,
   0x03094_03046_03099_0309E_0309D_03099_030AC_030AB_03099_030AE_030AD_03099_030B0_030AF_03099_030B2_030B1_03099,
   0x030B4_030B3_03099_030B6_030B5_03099_030B8_030B7_03099_030BA_030B9_03099_030BC_030BB_03099_030BE_030BD_03099,
   0x030C0_030BF_03099_030C2_030C1_03099_030C5_030C4_03099_030C7_030C6_03099_030C9_030C8_03099_030D0_030CF_03099,
   0x030D1_030CF_0309A_030D3_030D2_03099_030D4_030D2_0309A_030D6_030D5_03099_030D7_030D5_0309A_030D9_030D8_03099,
   0x030DA_030D8_0309A_030DC_030DB_03099_030DD_030DB_0309A_030F4_030A6_03099_030F7_030EF_03099_030F8_030F0_03099,
   0x030F9_030F1_03099_030FA_030F2_03099_030FE_030FD_03099_8F900_08C48_00000_8F901_066F4_00000_8F902_08ECA_00000,
   0x8F903_08CC8_00000_8F904_06ED1_00000_8F905_04E32_00000_8F906_053E5_00000_8F907_09F9C_00000_8F908_09F9C_00000,
   0x8F909_05951_00000_8F90A_091D1_00000_8F90B_05587_00000_8F90C_05948_00000_8F90D_061F6_00000_8F90E_07669_00000,
   0x8F90F_07F85_00000_8F910_0863F_00000_8F911_087BA_00000_8F912_088F8_00000_8F913_0908F_00000_8F914_06A02_00000,
   0x8F915_06D1B_00000_8F916_070D9_00000_8F917_073DE_00000_8F918_0843D_00000_8F919_0916A_00000_8F91A_099F1_00000,
   0x8F91B_04E82_00000_8F91C_05375_00000_8F91D_06B04_00000_8F91E_0721B_00000_8F91F_0862D_00000_8F920_09E1E_00000,
   0x8F921_05D50_00000_8F922_06FEB_00000_8F923_085CD_00000_8F924_08964_00000_8F925_062C9_00000_8F926_081D8_00000,
   0x8F927_0881F_00000_8F928_05ECA_00000_8F929_06717_00000_8F92A_06D6A_00000_8F92B_072FC_00000_8F92C_090CE_00000,
   0x8F92D_04F86_00000_8F92E_051B7_00000_8F92F_052DE_00000_8F930_064C4_00000_8F931_06AD3_00000_8F932_07210_00000,
   0x8F933_076E7_00000_8F934_08001_00000_8F935_08606_00000_8F936_0865C_00000_8F937_08DEF_00000_8F938_09732_00000,
   0x8F939_09B6F_00000_8F93A_09DFA_00000_8F93B_0788C_00000_8F93C_0797F_00000_8F93D_07DA0_00000_8F93E_083C9_00000,
   0x8F93F_09304_00000_8F940_09E7F_00000_8F941_08AD6_00000_8F942_058DF_00000_8F943_05F04_00000_8F944_07C60_00000,
   0x8F945_0807E_00000_8F946_07262_00000_8F947_078CA_00000_8F948_08CC2_00000_8F949_096F7_00000_8F94A_058D8_00000,
   0x8F94B_05C62_00000_8F94C_06A13_00000_8F94D_06DDA_00000_8F94E_06F0F_00000_8F94F_07D2F_00000_8F950_07E37_00000,
   0x8F951_0964B_00000_8F952_052D2_00000_8F953_0808B_00000_8F954_051DC_00000_8F955_051CC_00000_8F956_07A1C_00000,
   0x8F957_07DBE_00000_8F958_083F1_00000_8F959_09675_00000_8F95A_08B80_00000_8F95B_062CF_00000_8F95C_06A02_00000,
   0x8F95D_08AFE_00000_8F95E_04E39_00000_8F95F_05BE7_00000_8F960_06012_00000_8F961_07387_00000_8F962_07570_00000,
   0x8F963_05317_00000_8F964_078FB_00000_8F965_04FBF_00000_8F966_05FA9_00000_8F967_04E0D_00000_8F968_06CCC_00000,
   0x8F969_06578_00000_8F96A_07D22_00000_8F96B_053C3_00000_8F96C_0585E_00000_8F96D_07701_00000_8F96E_08449_00000,
   0x8F96F_08AAA_00000_8F970_06BBA_00000_8F971_08FB0_00000_8F972_06C88_00000_8F973_062FE_00000_8F974_082E5_00000,
   0x8F975_063A0_00000_8F976_07565_00000_8F977_04EAE_00000_8F978_05169_00000_8F979_051C9_00000_8F97A_06881_00000,
   0x8F97B_07CE7_00000_8F97C_0826F_00000_8F97D_08AD2_00000_8F97E_091CF_00000_8F97F_052F5_00000_8F980_05442_00000,
   0x8F981_05973_00000_8F982_05EEC_00000_8F983_065C5_00000_8F984_06FFE_00000_8F985_0792A_00000_8F986_095AD_00000,
   0x8F987_09A6A_00000_8F988_09E97_00000_8F989_09ECE_00000_8F98A_0529B_00000_8F98B_066C6_00000_8F98C_06B77_00000,
   0x8F98D_08F62_00000_8F98E_05E74_00000_8F98F_06190_00000_8F990_06200_00000_8F991_0649A_00000_8F992_06F23_00000,
   0x8F993_07149_00000_8F994_07489_00000_8F995_079CA_00000_8F996_07DF4_00000_8F997_0806F_00000_8F998_08F26_00000,
   0x8F999_084EE_00000_8F99A_09023_00000_8F99B_0934A_00000_8F99C_05217_00000_8F99D_052A3_00000_8F99E_054BD_00000,
   0x8F99F_070C8_00000_8F9A0_088C2_00000_8F9A1_08AAA_00000_8F9A2_05EC9_00000_8F9A3_05FF5_00000_8F9A4_0637B_00000,
   0x8F9A5_06BAE_00000_8F9A6_07C3E_00000_8F9A7_07375_00000_8F9A8_04EE4_00000_8F9A9_056F9_00000_8F9AA_05BE7_00000,
   0x8F9AB_05DBA_00000_8F9AC_0601C_00000_8F9AD_073B2_00000_8F9AE_07469_00000_8F9AF_07F9A_00000_8F9B0_08046_00000,
   0x8F9B1_09234_00000_8F9B2_096F6_00000_8F9B3_09748_00000_8F9B4_09818_00000_8F9B5_04F8B_00000_8F9B6_079AE_00000,
   0x8F9B7_091B4_00000_8F9B8_096B8_00000_8F9B9_060E1_00000_8F9BA_04E86_00000_8F9BB_050DA_00000_8F9BC_05BEE_00000,
   0x8F9BD_05C3F_00000_8F9BE_06599_00000_8F9BF_06A02_00000_8F9C0_071CE_00000_8F9C1_07642_00000_8F9C2_084FC_00000,
   0x8F9C3_0907C_00000_8F9C4_09F8D_00000_8F9C5_06688_00000_8F9C6_0962E_00000_8F9C7_05289_00000_8F9C8_0677B_00000,
   0x8F9C9_067F3_00000_8F9CA_06D41_00000_8F9CB_06E9C_00000_8F9CC_07409_00000_8F9CD_07559_00000_8F9CE_0786B_00000,
   0x8F9CF_07D10_00000_8F9D0_0985E_00000_8F9D1_0516D_00000_8F9D2_0622E_00000_8F9D3_09678_00000_8F9D4_0502B_00000,
   0x8F9D5_05D19_00000_8F9D6_06DEA_00000_8F9D7_08F2A_00000_8F9D8_05F8B_00000_8F9D9_06144_00000_8F9DA_06817_00000,
   0x8F9DB_07387_00000_8F9DC_09686_00000_8F9DD_05229_00000_8F9DE_0540F_00000_8F9DF_05C65_00000_8F9E0_06613_00000,
   0x8F9E1_0674E_00000_8F9E2_068A8_00000_8F9E3_06CE5_00000_8F9E4_07406_00000_8F9E5_075E2_00000_8F9E6_07F79_00000,
   0x8F9E7_088CF_00000_8F9E8_088E1_00000_8F9E9_091CC_00000_8F9EA_096E2_00000_8F9EB_0533F_00000_8F9EC_06EBA_00000,
   0x8F9ED_0541D_00000_8F9EE_071D0_00000_8F9EF_07498_00000_8F9F0_085FA_00000_8F9F1_096A3_00000_8F9F2_09C57_00000,
   0x8F9F3_09E9F_00000_8F9F4_06797_00000_8F9F5_06DCB_00000_8F9F6_081E8_00000_8F9F7_07ACB_00000_8F9F8_07B20_00000,
   0x8F9F9_07C92_00000_8F9FA_072C0_00000_8F9FB_07099_00000_8F9FC_08B58_00000_8F9FD_04EC0_00000_8F9FE_08336_00000,
   0x8F9FF_0523A_00000_8FA00_05207_00000_8FA01_05EA6_00000_8FA02_062D3_00000_8FA03_07CD6_00000_8FA04_05B85_00000,
   0x8FA05_06D1E_00000_8FA06_066B4_00000_8FA07_08F3B_00000_8FA08_0884C_00000_8FA09_0964D_00000_8FA0A_0898B_00000,
   0x8FA0B_05ED3_00000_8FA0C_05140_00000_8FA0D_055C0_00000_8FA10_0585A_00000_8FA12_06674_00000_8FA15_051DE_00000,
   0x8FA16_0732A_00000_8FA17_076CA_00000_8FA18_0793C_00000_8FA19_0795E_00000_8FA1A_07965_00000_8FA1B_0798F_00000,
   0x8FA1C_09756_00000_8FA1D_07CBE_00000_8FA1E_07FBD_00000_8FA20_08612_00000_8FA22_08AF8_00000_8FA25_09038_00000,
   0x8FA26_090FD_00000_8FA2A_098EF_00000_8FA2B_098FC_00000_8FA2C_09928_00000_8FA2D_09DB4_00000_8FA2E_090DE_00000,
   0x8FA2F_096B7_00000_8FA30_04FAE_00000_8FA31_050E7_00000_8FA32_0514D_00000_8FA33_052C9_00000_8FA34_052E4_00000,
   0x8FA35_05351_00000_8FA36_0559D_00000_8FA37_05606_00000_8FA38_05668_00000_8FA39_05840_00000_8FA3A_058A8_00000,
   0x8FA3B_05C64_00000_8FA3C_05C6E_00000_8FA3D_06094_00000_8FA3E_06168_00000_8FA3F_0618E_00000_8FA40_061F2_00000,
   0x8FA41_0654F_00000_8FA42_065E2_00000_8FA43_06691_00000_8FA44_06885_00000_8FA45_06D77_00000_8FA46_06E1A_00000,
   0x8FA47_06F22_00000_8FA48_0716E_00000_8FA49_0722B_00000_8FA4A_07422_00000_8FA4B_07891_00000_8FA4C_0793E_00000,
   0x8FA4D_07949_00000_8FA4E_07948_00000_8FA4F_07950_00000_8FA50_07956_00000_8FA51_0795D_00000_8FA52_0798D_00000,
   0x8FA53_0798E_00000_8FA54_07A40_00000_8FA55_07A81_00000_8FA56_07BC0_00000_8FA57_07DF4_00000_8FA58_07E09_00000,
   0x8FA59_07E41_00000_8FA5A_07F72_00000_8FA5B_08005_00000_8FA5C_081ED_00000_8FA5D_08279_00000_8FA5E_08279_00000,
   0x8FA5F_08457_00000_8FA60_08910_00000_8FA61_08996_00000_8FA62_08B01_00000_8FA63_08B39_00000_8FA64_08CD3_00000,
   0x8FA65_08D08_00000_8FA66_08FB6_00000_8FA67_09038_00000_8FA68_096E3_00000_8FA69_097FF_00000_8FA6A_0983B_00000,
   0x8FA6B_06075_00000_8FA6C_242EE_00000_8FA6D_08218_00000_8FA70_04E26_00000_8FA71_051B5_00000_8FA72_05168_00000,
   0x8FA73_04F80_00000_8FA74_05145_00000_8FA75_05180_00000_8FA76_052C7_00000_8FA77_052FA_00000_8FA78_0559D_00000,
   0x8FA79_05555_00000_8FA7A_05599_00000_8FA7B_055E2_00000_8FA7C_0585A_00000_8FA7D_058B3_00000_8FA7E_05944_00000,
   0x8FA7F_05954_00000_8FA80_05A62_00000_8FA81_05B28_00000_8FA82_05ED2_00000_8FA83_05ED9_00000_8FA84_05F69_00000,
   0x8FA85_05FAD_00000_8FA86_060D8_00000_8FA87_0614E_00000_8FA88_06108_00000_8FA89_0618E_00000_8FA8A_06160_00000,
   0x8FA8B_061F2_00000_8FA8C_06234_00000_8FA8D_063C4_00000_8FA8E_0641C_00000_8FA8F_06452_00000_8FA90_06556_00000,
   0x8FA91_06674_00000_8FA92_06717_00000_8FA93_0671B_00000_8FA94_06756_00000_8FA95_06B79_00000_8FA96_06BBA_00000,
   0x8FA97_06D41_00000_8FA98_06EDB_00000_8FA99_06ECB_00000_8FA9A_06F22_00000_8FA9B_0701E_00000_8FA9C_0716E_00000,
   0x8FA9D_077A7_00000_8FA9E_07235_00000_8FA9F_072AF_00000_8FAA0_0732A_00000_8FAA1_07471_00000_8FAA2_07506_00000,
   0x8FAA3_0753B_00000_8FAA4_0761D_00000_8FAA5_0761F_00000_8FAA6_076CA_00000_8FAA7_076DB_00000_8FAA8_076F4_00000,
   0x8FAA9_0774A_00000_8FAAA_07740_00000_8FAAB_078CC_00000_8FAAC_07AB1_00000_8FAAD_07BC0_00000_8FAAE_07C7B_00000,
   0x8FAAF_07D5B_00000_8FAB0_07DF4_00000_8FAB1_07F3E_00000_8FAB2_08005_00000_8FAB3_08352_00000_8FAB4_083EF_00000,
   0x8FAB5_08779_00000_8FAB6_08941_00000_8FAB7_08986_00000_8FAB8_08996_00000_8FAB9_08ABF_00000_8FABA_08AF8_00000,
   0x8FABB_08ACB_00000_8FABC_08B01_00000_8FABD_08AFE_00000_8FABE_08AED_00000_8FABF_08B39_00000_8FAC0_08B8A_00000,
   0x8FAC1_08D08_00000_8FAC2_08F38_00000_8FAC3_09072_00000_8FAC4_09199_00000_8FAC5_09276_00000_8FAC6_0967C_00000,
   0x8FAC7_096E3_00000_8FAC8_09756_00000_8FAC9_097DB_00000_8FACA_097FF_00000_8FACB_0980B_00000_8FACC_0983B_00000,
   0x8FACD_09B12_00000_8FACE_09F9C_00000_8FACF_2284A_00000_8FAD0_22844_00000_8FAD1_233D5_00000_8FAD2_03B9D_00000,
   0x8FAD3_04018_00000_8FAD4_04039_00000_8FAD5_25249_00000_8FAD6_25CD0_00000_8FAD7_27ED3_00000_8FAD8_09F43_00000,
   0x8FAD9_09F8E_00000_8FB1D_005D9_005B4_8FB1F_005F2_005B7_8FB2A_005E9_005C1_8FB2B_005E9_005C2_8FB2C_0FB49_005C1,
   0x8FB2D_0FB49_005C2_8FB2E_005D0_005B7_8FB2F_005D0_005B8_8FB30_005D0_005BC_8FB31_005D1_005BC_8FB32_005D2_005BC,
   0x8FB33_005D3_005BC_8FB34_005D4_005BC_8FB35_005D5_005BC_8FB36_005D6_005BC_8FB38_005D8_005BC_8FB39_005D9_005BC,
   0x8FB3A_005DA_005BC_8FB3B_005DB_005BC_8FB3C_005DC_005BC_8FB3E_005DE_005BC_8FB40_005E0_005BC_8FB41_005E1_005BC,
   0x8FB43_005E3_005BC_8FB44_005E4_005BC_8FB46_005E6_005BC_8FB47_005E7_005BC_8FB48_005E8_005BC_8FB49_005E9_005BC,
   0x8FB4A_005EA_005BC_8FB4B_005D5_005B9_8FB4C_005D1_005BF_8FB4D_005DB_005BF_8FB4E_005E4_005BF_1109A_11099_110BA,
   0x1109C_1109B_110BA_110AB_110A5_110BA_1112E_11131_11127_1112F_11132_11127_1134B_11347_1133E_1134C_11347_11357,
   0x114BB_114B9_114BA_114BC_114B9_114B0_114BE_114B9_114BD_115BA_115B8_115AF_115BB_115B9_115AF_11938_11935_11930,
   0x9D15E_1D157_1D165_9D15F_1D158_1D165_9D160_1D15F_1D16E_9D161_1D15F_1D16F_9D162_1D15F_1D170_9D163_1D15F_1D171,
   0x9D164_1D15F_1D172_9D1BB_1D1B9_1D165_9D1BC_1D1BA_1D165_9D1BD_1D1BB_1D16E_9D1BE_1D1BC_1D16E_9D1BF_1D1BB_1D16F,
   0x9D1C0_1D1BC_1D16F_AF800_04E3D_00000_AF801_04E38_00000_AF802_04E41_00000_AF803_20122_00000_AF804_04F60_00000,
   0xAF805_04FAE_00000_AF806_04FBB_00000_AF807_05002_00000_AF808_0507A_00000_AF809_05099_00000_AF80A_050E7_00000,
   0xAF80B_050CF_00000_AF80C_0349E_00000_AF80D_2063A_00000_AF80E_0514D_00000_AF80F_05154_00000_AF810_05164_00000,
   0xAF811_05177_00000_AF812_2051C_00000_AF813_034B9_00000_AF814_05167_00000_AF815_0518D_00000_AF816_2054B_00000,
   0xAF817_05197_00000_AF818_051A4_00000_AF819_04ECC_00000_AF81A_051AC_00000_AF81B_051B5_00000_AF81C_291DF_00000,
   0xAF81D_051F5_00000_AF81E_05203_00000_AF81F_034DF_00000_AF820_0523B_00000_AF821_05246_00000_AF822_05272_00000,
   0xAF823_05277_00000_AF824_03515_00000_AF825_052C7_00000_AF826_052C9_00000_AF827_052E4_00000_AF828_052FA_00000,
   0xAF829_05305_00000_AF82A_05306_00000_AF82B_05317_00000_AF82C_05349_00000_AF82D_05351_00000_AF82E_0535A_00000,
   0xAF82F_05373_00000_AF830_0537D_00000_AF831_0537F_00000_AF832_0537F_00000_AF833_0537F_00000_AF834_20A2C_00000,
   0xAF835_07070_00000_AF836_053CA_00000_AF837_053DF_00000_AF838_20B63_00000_AF839_053EB_00000_AF83A_053F1_00000,
   0xAF83B_05406_00000_AF83C_0549E_00000_AF83D_05438_00000_AF83E_05448_00000_AF83F_05468_00000_AF840_054A2_00000,
   0xAF841_054F6_00000_AF842_05510_00000_AF843_05553_00000_AF844_05563_00000_AF845_05584_00000_AF846_05584_00000,
   0xAF847_05599_00000_AF848_055AB_00000_AF849_055B3_00000_AF84A_055C2_00000_AF84B_05716_00000_AF84C_05606_00000,
   0xAF84D_05717_00000_AF84E_05651_00000_AF84F_05674_00000_AF850_05207_00000_AF851_058EE_00000_AF852_057CE_00000,
   0xAF853_057F4_00000_AF854_0580D_00000_AF855_0578B_00000_AF856_05832_00000_AF857_05831_00000_AF858_058AC_00000,
   0xAF859_214E4_00000_AF85A_058F2_00000_AF85B_058F7_00000_AF85C_05906_00000_AF85D_0591A_00000_AF85E_05922_00000,
   0xAF85F_05962_00000_AF860_216A8_00000_AF861_216EA_00000_AF862_059EC_00000_AF863_05A1B_00000_AF864_05A27_00000,
   0xAF865_059D8_00000_AF866_05A66_00000_AF867_036EE_00000_AF868_036FC_00000_AF869_05B08_00000_AF86A_05B3E_00000,
   0xAF86B_05B3E_00000_AF86C_219C8_00000_AF86D_05BC3_00000_AF86E_05BD8_00000_AF86F_05BE7_00000_AF870_05BF3_00000,
   0xAF871_21B18_00000_AF872_05BFF_00000_AF873_05C06_00000_AF874_05F53_00000_AF875_05C22_00000_AF876_03781_00000,
   0xAF877_05C60_00000_AF878_05C6E_00000_AF879_05CC0_00000_AF87A_05C8D_00000_AF87B_21DE4_00000_AF87C_05D43_00000,
   0xAF87D_21DE6_00000_AF87E_05D6E_00000_AF87F_05D6B_00000_AF880_05D7C_00000_AF881_05DE1_00000_AF882_05DE2_00000,
   0xAF883_0382F_00000_AF884_05DFD_00000_AF885_05E28_00000_AF886_05E3D_00000_AF887_05E69_00000_AF888_03862_00000,
   0xAF889_22183_00000_AF88A_0387C_00000_AF88B_05EB0_00000_AF88C_05EB3_00000_AF88D_05EB6_00000_AF88E_05ECA_00000,
   0xAF88F_2A392_00000_AF890_05EFE_00000_AF891_22331_00000_AF892_22331_00000_AF893_08201_00000_AF894_05F22_00000,
   0xAF895_05F22_00000_AF896_038C7_00000_AF897_232B8_00000_AF898_261DA_00000_AF899_05F62_00000_AF89A_05F6B_00000,
   0xAF89B_038E3_00000_AF89C_05F9A_00000_AF89D_05FCD_00000_AF89E_05FD7_00000_AF89F_05FF9_00000_AF8A0_06081_00000,
   0xAF8A1_0393A_00000_AF8A2_0391C_00000_AF8A3_06094_00000_AF8A4_226D4_00000_AF8A5_060C7_00000_AF8A6_06148_00000,
   0xAF8A7_0614C_00000_AF8A8_0614E_00000_AF8A9_0614C_00000_AF8AA_0617A_00000_AF8AB_0618E_00000_AF8AC_061B2_00000,
   0xAF8AD_061A4_00000_AF8AE_061AF_00000_AF8AF_061DE_00000_AF8B0_061F2_00000_AF8B1_061F6_00000_AF8B2_06210_00000,
   0xAF8B3_0621B_00000_AF8B4_0625D_00000_AF8B5_062B1_00000_AF8B6_062D4_00000_AF8B7_06350_00000_AF8B8_22B0C_00000,
   0xAF8B9_0633D_00000_AF8BA_062FC_00000_AF8BB_06368_00000_AF8BC_06383_00000_AF8BD_063E4_00000_AF8BE_22BF1_00000,
   0xAF8BF_06422_00000_AF8C0_063C5_00000_AF8C1_063A9_00000_AF8C2_03A2E_00000_AF8C3_06469_00000_AF8C4_0647E_00000,
   0xAF8C5_0649D_00000_AF8C6_06477_00000_AF8C7_03A6C_00000_AF8C8_0654F_00000_AF8C9_0656C_00000_AF8CA_2300A_00000,
   0xAF8CB_065E3_00000_AF8CC_066F8_00000_AF8CD_06649_00000_AF8CE_03B19_00000_AF8CF_06691_00000_AF8D0_03B08_00000,
   0xAF8D1_03AE4_00000_AF8D2_05192_00000_AF8D3_05195_00000_AF8D4_06700_00000_AF8D5_0669C_00000_AF8D6_080AD_00000,
   0xAF8D7_043D9_00000_AF8D8_06717_00000_AF8D9_0671B_00000_AF8DA_06721_00000_AF8DB_0675E_00000_AF8DC_06753_00000,
   0xAF8DD_233C3_00000_AF8DE_03B49_00000_AF8DF_067FA_00000_AF8E0_06785_00000_AF8E1_06852_00000_AF8E2_06885_00000,
   0xAF8E3_2346D_00000_AF8E4_0688E_00000_AF8E5_0681F_00000_AF8E6_06914_00000_AF8E7_03B9D_00000_AF8E8_06942_00000,
   0xAF8E9_069A3_00000_AF8EA_069EA_00000_AF8EB_06AA8_00000_AF8EC_236A3_00000_AF8ED_06ADB_00000_AF8EE_03C18_00000,
   0xAF8EF_06B21_00000_AF8F0_238A7_00000_AF8F1_06B54_00000_AF8F2_03C4E_00000_AF8F3_06B72_00000_AF8F4_06B9F_00000,
   0xAF8F5_06BBA_00000_AF8F6_06BBB_00000_AF8F7_23A8D_00000_AF8F8_21D0B_00000_AF8F9_23AFA_00000_AF8FA_06C4E_00000,
   0xAF8FB_23CBC_00000_AF8FC_06CBF_00000_AF8FD_06CCD_00000_AF8FE_06C67_00000_AF8FF_06D16_00000_AF900_06D3E_00000,
   0xAF901_06D77_00000_AF902_06D41_00000_AF903_06D69_00000_AF904_06D78_00000_AF905_06D85_00000_AF906_23D1E_00000,
   0xAF907_06D34_00000_AF908_06E2F_00000_AF909_06E6E_00000_AF90A_03D33_00000_AF90B_06ECB_00000_AF90C_06EC7_00000,
   0xAF90D_23ED1_00000_AF90E_06DF9_00000_AF90F_06F6E_00000_AF910_23F5E_00000_AF911_23F8E_00000_AF912_06FC6_00000,
   0xAF913_07039_00000_AF914_0701E_00000_AF915_0701B_00000_AF916_03D96_00000_AF917_0704A_00000_AF918_0707D_00000,
   0xAF919_07077_00000_AF91A_070AD_00000_AF91B_20525_00000_AF91C_07145_00000_AF91D_24263_00000_AF91E_0719C_00000,
   0xAF91F_243AB_00000_AF920_07228_00000_AF921_07235_00000_AF922_07250_00000_AF923_24608_00000_AF924_07280_00000,
   0xAF925_07295_00000_AF926_24735_00000_AF927_24814_00000_AF928_0737A_00000_AF929_0738B_00000_AF92A_03EAC_00000,
   0xAF92B_073A5_00000_AF92C_03EB8_00000_AF92D_03EB8_00000_AF92E_07447_00000_AF92F_0745C_00000_AF930_07471_00000,
   0xAF931_07485_00000_AF932_074CA_00000_AF933_03F1B_00000_AF934_07524_00000_AF935_24C36_00000_AF936_0753E_00000,
   0xAF937_24C92_00000_AF938_07570_00000_AF939_2219F_00000_AF93A_07610_00000_AF93B_24FA1_00000_AF93C_24FB8_00000,
   0xAF93D_25044_00000_AF93E_03FFC_00000_AF93F_04008_00000_AF940_076F4_00000_AF941_250F3_00000_AF942_250F2_00000,
   0xAF943_25119_00000_AF944_25133_00000_AF945_0771E_00000_AF946_0771F_00000_AF947_0771F_00000_AF948_0774A_00000,
   0xAF949_04039_00000_AF94A_0778B_00000_AF94B_04046_00000_AF94C_04096_00000_AF94D_2541D_00000_AF94E_0784E_00000,
   0xAF94F_0788C_00000_AF950_078CC_00000_AF951_040E3_00000_AF952_25626_00000_AF953_07956_00000_AF954_2569A_00000,
   0xAF955_256C5_00000_AF956_0798F_00000_AF957_079EB_00000_AF958_0412F_00000_AF959_07A40_00000_AF95A_07A4A_00000,
   0xAF95B_07A4F_00000_AF95C_2597C_00000_AF95D_25AA7_00000_AF95E_25AA7_00000_AF95F_07AEE_00000_AF960_04202_00000,
   0xAF961_25BAB_00000_AF962_07BC6_00000_AF963_07BC9_00000_AF964_04227_00000_AF965_25C80_00000_AF966_07CD2_00000,
   0xAF967_042A0_00000_AF968_07CE8_00000_AF969_07CE3_00000_AF96A_07D00_00000_AF96B_25F86_00000_AF96C_07D63_00000,
   0xAF96D_04301_00000_AF96E_07DC7_00000_AF96F_07E02_00000_AF970_07E45_00000_AF971_04334_00000_AF972_26228_00000,
   0xAF973_26247_00000_AF974_04359_00000_AF975_262D9_00000_AF976_07F7A_00000_AF977_2633E_00000_AF978_07F95_00000,
   0xAF979_07FFA_00000_AF97A_08005_00000_AF97B_264DA_00000_AF97C_26523_00000_AF97D_08060_00000_AF97E_265A8_00000,
   0xAF97F_08070_00000_AF980_2335F_00000_AF981_043D5_00000_AF982_080B2_00000_AF983_08103_00000_AF984_0440B_00000,
   0xAF985_0813E_00000_AF986_05AB5_00000_AF987_267A7_00000_AF988_267B5_00000_AF989_23393_00000_AF98A_2339C_00000,
   0xAF98B_08201_00000_AF98C_08204_00000_AF98D_08F9E_00000_AF98E_0446B_00000_AF98F_08291_00000_AF990_0828B_00000,
   0xAF991_0829D_00000_AF992_052B3_00000_AF993_082B1_00000_AF994_082B3_00000_AF995_082BD_00000_AF996_082E6_00000,
   0xAF997_26B3C_00000_AF998_082E5_00000_AF999_0831D_00000_AF99A_08363_00000_AF99B_083AD_00000_AF99C_08323_00000,
   0xAF99D_083BD_00000_AF99E_083E7_00000_AF99F_08457_00000_AF9A0_08353_00000_AF9A1_083CA_00000_AF9A2_083CC_00000,
   0xAF9A3_083DC_00000_AF9A4_26C36_00000_AF9A5_26D6B_00000_AF9A6_26CD5_00000_AF9A7_0452B_00000_AF9A8_084F1_00000,
   0xAF9A9_084F3_00000_AF9AA_08516_00000_AF9AB_273CA_00000_AF9AC_08564_00000_AF9AD_26F2C_00000_AF9AE_0455D_00000,
   0xAF9AF_04561_00000_AF9B0_26FB1_00000_AF9B1_270D2_00000_AF9B2_0456B_00000_AF9B3_08650_00000_AF9B4_0865C_00000,
   0xAF9B5_08667_00000_AF9B6_08669_00000_AF9B7_086A9_00000_AF9B8_08688_00000_AF9B9_0870E_00000_AF9BA_086E2_00000,
   0xAF9BB_08779_00000_AF9BC_08728_00000_AF9BD_0876B_00000_AF9BE_08786_00000_AF9BF_045D7_00000_AF9C0_087E1_00000,
   0xAF9C1_08801_00000_AF9C2_045F9_00000_AF9C3_08860_00000_AF9C4_08863_00000_AF9C5_27667_00000_AF9C6_088D7_00000,
   0xAF9C7_088DE_00000_AF9C8_04635_00000_AF9C9_088FA_00000_AF9CA_034BB_00000_AF9CB_278AE_00000_AF9CC_27966_00000,
   0xAF9CD_046BE_00000_AF9CE_046C7_00000_AF9CF_08AA0_00000_AF9D0_08AED_00000_AF9D1_08B8A_00000_AF9D2_08C55_00000,
   0xAF9D3_27CA8_00000_AF9D4_08CAB_00000_AF9D5_08CC1_00000_AF9D6_08D1B_00000_AF9D7_08D77_00000_AF9D8_27F2F_00000,
   0xAF9D9_20804_00000_AF9DA_08DCB_00000_AF9DB_08DBC_00000_AF9DC_08DF0_00000_AF9DD_208DE_00000_AF9DE_08ED4_00000,
   0xAF9DF_08F38_00000_AF9E0_285D2_00000_AF9E1_285ED_00000_AF9E2_09094_00000_AF9E3_090F1_00000_AF9E4_09111_00000,
   0xAF9E5_2872E_00000_AF9E6_0911B_00000_AF9E7_09238_00000_AF9E8_092D7_00000_AF9E9_092D8_00000_AF9EA_0927C_00000,
   0xAF9EB_093F9_00000_AF9EC_09415_00000_AF9ED_28BFA_00000_AF9EE_0958B_00000_AF9EF_04995_00000_AF9F0_095B7_00000,
   0xAF9F1_28D77_00000_AF9F2_049E6_00000_AF9F3_096C3_00000_AF9F4_05DB2_00000_AF9F5_09723_00000_AF9F6_29145_00000,
   0xAF9F7_2921A_00000_AF9F8_04A6E_00000_AF9F9_04A76_00000_AF9FA_097E0_00000_AF9FB_2940A_00000_AF9FC_04AB2_00000,
   0xAF9FD_29496_00000_AF9FE_0980B_00000_AF9FF_0980B_00000_AFA00_09829_00000_AFA01_295B6_00000_AFA02_098E2_00000,
   0xAFA03_04B33_00000_AFA04_09929_00000_AFA05_099A7_00000_AFA06_099C2_00000_AFA07_099FE_00000_AFA08_04BCE_00000,
   0xAFA09_29B30_00000_AFA0A_09B12_00000_AFA0B_09C40_00000_AFA0C_09CFD_00000_AFA0D_04CCE_00000_AFA0E_04CED_00000,
   0xAFA0F_09D67_00000_AFA10_2A0CE_00000_AFA11_04CF8_00000_AFA12_2A105_00000_AFA13_2A20E_00000_AFA14_2A291_00000,
   0xAFA15_09EBB_00000_AFA16_04D56_00000_AFA17_09EF9_00000_AFA18_09EFE_00000_AFA19_09F05_00000_AFA1A_09F0F_00000,
   0xAFA1B_09F16_00000_AFA1C_09F3B_00000_AFA1D_2A600_00000]).map .ofTriple

@[irreducible] def decompositionOf : Std.HashMap Nat (List Nat) :=
  Std.HashMap.ofList (decompositions.map fun d ↦ (d.char, d.parts))

@[irreducible] def compositionOf : Std.HashMap (Nat × Nat) Nat :=
  Std.HashMap.ofList (decompositions.filterMap fun d ↦
    match d.composes, d.parts with
    | true, [a, b] => some ((a, b), d.char)
    | _, _ => none)

@[irreducible] def combiningRuns : List (Nat × Nat × Nat) := tableOf
  [0x00300_00014_000E6_00315_00000_000E8_00316_00003_000DC_0031A_00000_000E8_0031B_00000_000D8_0031C_00004_000DC,
   0x00321_00001_000CA_00323_00003_000DC_00327_00001_000CA_00329_0000A_000DC_00334_00004_00001_00339_00003_000DC,
   0x0033D_00007_000E6_00345_00000_000F0_00346_00000_000E6_00347_00002_000DC_0034A_00002_000E6_0034D_00001_000DC,
   0x00350_00002_000E6_00353_00003_000DC_00357_00000_000E6_00358_00000_000E8_00359_00001_000DC_0035B_00000_000E6,
   0x0035C_00000_000E9_0035D_00001_000EA_0035F_00000_000E9_00360_00001_000EA_00362_00000_000E9_00363_0000C_000E6,
   0x00483_00004_000E6_00591_00000_000DC_00592_00003_000E6_00596_00000_000DC_00597_00002_000E6_0059A_00000_000DE,
   0x0059B_00000_000DC_0059C_00005_000E6_005A2_00005_000DC_005A8_00001_000E6_005AA_00000_000DC_005AB_00001_000E6,
   0x005AD_00000_000DE_005AE_00000_000E4_005AF_00000_000E6_005B0_00000_0000A_005B1_00000_0000B_005B2_00000_0000C,
   0x005B3_00000_0000D_005B4_00000_0000E_005B5_00000_0000F_005B6_00000_00010_005B7_00000_00011_005B8_00000_00012,
   0x005B9_00001_00013_005BB_00000_00014_005BC_00000_00015_005BD_00000_00016_005BF_00000_00017_005C1_00000_00018,
   0x005C2_00000_00019_005C4_00000_000E6_005C5_00000_000DC_005C7_00000_00012_00610_00007_000E6_00618_00000_0001E,
   0x00619_00000_0001F_0061A_00000_00020_0064B_00000_0001B_0064C_00000_0001C_0064D_00000_0001D_0064E_00000_0001E,
   0x0064F_00000_0001F_00650_00000_00020_00651_00000_00021_00652_00000_00022_00653_00001_000E6_00655_00001_000DC,
   0x00657_00004_000E6_0065C_00000_000DC_0065D_00001_000E6_0065F_00000_000DC_00670_00000_00023_006D6_00006_000E6,
   0x006DF_00003_000E6_006E3_00000_000DC_006E4_00000_000E6_006E7_00001_000E6_006EA_00000_000DC_006EB_00001_000E6,
   0x006ED_00000_000DC_00711_00000_00024_00730_00000_000E6_00731_00000_000DC_00732_00001_000E6_00734_00000_000DC,
   0x00735_00001_000E6_00737_00002_000DC_0073A_00000_000E6_0073B_00001_000DC_0073D_00000_000E6_0073E_00000_000DC,
   0x0073F_00002_000E6_00742_00000_000DC_00743_00000_000E6_00744_00000_000DC_00745_00000_000E6_00746_00000_000DC,
   0x00747_00000_000E6_00748_00000_000DC_00749_00001_000E6_007EB_00006_000E6_007F2_00000_000DC_007F3_00000_000E6,
   0x007FD_00000_000DC_00816_00003_000E6_0081B_00008_000E6_00825_00002_000E6_00829_00004_000E6_00859_00002_000DC,
   0x00898_00000_000E6_00899_00002_000DC_0089C_00003_000E6_008CA_00004_000E6_008CF_00004_000DC_008D4_0000D_000E6,
   0x008E3_00000_000DC_008E4_00001_000E6_008E6_00000_000DC_008E7_00001_000E6_008E9_00000_000DC_008EA_00002_000E6,
   0x008ED_00002_000DC_008F0_00000_0001B_008F1_00000_0001C_008F2_00000_0001D_008F3_00002_000E6_008F6_00000_000DC,
   0x008F7_00001_000E6_008F9_00001_000DC_008FB_00004_000E6_0093C_00000_00007_0094D_00000_00009_00951_00000_000E6,
   0x00952_00000_000DC_00953_00001_000E6_009BC_00000_00007_009CD_00000_00009_009FE_00000_000E6_00A3C_00000_00007,
   0x00A4D_00000_00009_00ABC_00000_00007_00ACD_00000_00009_00B3C_00000_00007_00B4D_00000_00009_00BCD_00000_00009,
   0x00C3C_00000_00007_00C4D_00000_00009_00C55_00000_00054_00C56_00000_0005B_00CBC_00000_00007_00CCD_00000_00009,
   0x00D3B_00001_00009_00D4D_00000_00009_00DCA_00000_00009_00E38_00001_00067_00E3A_00000_00009_00E48_00003_0006B,
   0x00EB8_00001_00076_00EBA_00000_00009_00EC8_00003_0007A_00ECE_00000_0007A_00F18_00001_000DC_00F35_00000_000DC,
   0x00F37_00000_000DC_00F39_00000_000D8_00F71_00000_00081_00F72_00000_00082_00F74_00000_00084_00F7A_00003_00082,
   0x00F80_00000_00082_00F82_00001_000E6_00F84_00000_00009_00F86_00001_000E6_00FC6_00000_000DC_01037_00000_00007,
   0x01039_00001_00009_0108D_00000_000DC_0135D_00002_000E6_01714_00001_00009_01734_00000_00009_017D2_00000_00009,
   0x017DD_00000_000E6_018A9_00000_000E4_01939_00000_000DE_0193A_00000_000E6_0193B_00000_000DC_01A17_00000_000E6,
   0x01A18_00000_000DC_01A60_00000_00009_01A75_00007_000E6_01A7F_00000_000DC_01AB0_00004_000E6_01AB5_00005_000DC,
   0x01ABB_00001_000E6_01ABD_00000_000DC_01ABF_00001_000DC_01AC1_00001_000E6_01AC3_00001_000DC_01AC5_00004_000E6,
   0x01ACA_00000_000DC_01ACB_00003_000E6_01B34_00000_00007_01B44_00000_00009_01B6B_00000_000E6_01B6C_00000_000DC,
   0x01B6D_00006_000E6_01BAA_00001_00009_01BE6_00000_00007_01BF2_00001_00009_01C37_00000_00007_01CD0_00002_000E6,
   0x01CD4_00000_00001_01CD5_00004_000DC_01CDA_00001_000E6_01CDC_00003_000DC_01CE0_00000_000E6_01CE2_00006_00001,
   0x01CED_00000_000DC_01CF4_00000_000E6_01CF8_00001_000E6_01DC0_00001_000E6_01DC2_00000_000DC_01DC3_00006_000E6,
   0x01DCA_00000_000DC_01DCB_00001_000E6_01DCD_00000_000EA_01DCE_00000_000D6_01DCF_00000_000DC_01DD0_00000_000CA,
   0x01DD1_00024_000E6_01DF6_00000_000E8_01DF7_00001_000E4_01DF9_00000_000DC_01DFA_00000_000DA_01DFB_00000_000E6,
   0x01DFC_00000_000E9_01DFD_00000_000DC_01DFE_00000_000E6_01DFF_00000_000DC_020D0_00001_000E6_020D2_00001_00001,
   0x020D4_00003_000E6_020D8_00002_00001_020DB_00001_000E6_020E1_00000_000E6_020E5_00001_00001_020E7_00000_000E6,
   0x020E8_00000_000DC_020E9_00000_000E6_020EA_00001_00001_020EC_00003_000DC_020F0_00000_000E6_02CEF_00002_000E6,
   0x02D7F_00000_00009_02DE0_0001F_000E6_0302A_00000_000DA_0302B_00000_000E4_0302C_00000_000E8_0302D_00000_000DE,
   0x0302E_00001_000E0_03099_00001_00008_0A66F_00000_000E6_0A674_00009_000E6_0A69E_00001_000E6_0A6F0_00001_000E6,
   0x0A806_00000_00009_0A82C_00000_00009_0A8C4_00000_00009_0A8E0_00011_000E6_0A92B_00002_000DC_0A953_00000_00009,
   0x0A9B3_00000_00007_0A9C0_00000_00009_0AAB0_00000_000E6_0AAB2_00001_000E6_0AAB4_00000_000DC_0AAB7_00001_000E6,
   0x0AABE_00001_000E6_0AAC1_00000_000E6_0AAF6_00000_00009_0ABED_00000_00009_0FB1E_00000_0001A_0FE20_00006_000E6,
   0x0FE27_00006_000DC_0FE2E_00001_000E6_101FD_00000_000DC_102E0_00000_000DC_10376_00004_000E6_10A0D_00000_000DC,
   0x10A0F_00000_000E6_10A38_00000_000E6_10A39_00000_00001_10A3A_00000_000DC_10A3F_00000_00009_10AE5_00000_000E6,
   0x10AE6_00000_000DC_10D24_00003_000E6_10EAB_00001_000E6_10EFD_00002_000DC_10F46_00001_000DC_10F48_00002_000E6,
   0x10F4B_00000_000DC_10F4C_00000_000E6_10F4D_00003_000DC_10F82_00000_000E6_10F83_00000_000DC_10F84_00000_000E6,
   0x10F85_00000_000DC_11046_00000_00009_11070_00000_00009_1107F_00000_00009_110B9_00000_00009_110BA_00000_00007,
   0x11100_00002_000E6_11133_00001_00009_11173_00000_00007_111C0_00000_00009_111CA_00000_00007_11235_00000_00009,
   0x11236_00000_00007_112E9_00000_00007_112EA_00000_00009_1133B_00001_00007_1134D_00000_00009_11366_00006_000E6,
   0x11370_00004_000E6_11442_00000_00009_11446_00000_00007_1145E_00000_000E6_114C2_00000_00009_114C3_00000_00007,
   0x115BF_00000_00009_115C0_00000_00007_1163F_00000_00009_116B6_00000_00009_116B7_00000_00007_1172B_00000_00009,
   0x11839_00000_00009_1183A_00000_00007_1193D_00001_00009_11943_00000_00007_119E0_00000_00009_11A34_00000_00009,
   0x11A47_00000_00009_11A99_00000_00009_11C3F_00000_00009_11D42_00000_00007_11D44_00001_00009_11D97_00000_00009,
   0x11F41_00001_00009_16AF0_00004_00001_16B30_00006_000E6_16FF0_00001_00006_1BC9E_00000_00001_1D165_00001_000D8,
   0x1D167_00002_00001_1D16D_00000_000E2_1D16E_00004_000D8_1D17B_00007_000DC_1D185_00004_000E6_1D18A_00001_000DC,
   0x1D1AA_00003_000E6_1D242_00002_000E6_1E000_00006_000E6_1E008_00010_000E6_1E01B_00006_000E6_1E023_00001_000E6,
   0x1E026_00004_000E6_1E08F_00000_000E6_1E130_00006_000E6_1E2AE_00000_000E6_1E2EC_00003_000E6_1E4EC_00001_000E8,
   0x1E4EE_00000_000DC_1E4EF_00000_000E6_1E8D0_00006_000DC_1E944_00005_000E6_1E94A_00000_00007]

@[irreducible] def combiningClasses : Std.HashMap Nat Nat :=
  Std.HashMap.ofList (combiningRuns.flatMap fun (first, len, cls) ↦
    (List.range (len + 1)).map fun i ↦ (first + i, cls))

def combiningClass (c : Nat) : Nat := combiningClasses.getD c 0

def isSyllable (c : Nat) : Bool := 0xAC00 ≤ c && c ≤ 0xD7A3

def letters (c : Nat) : List Nat :=
  let s := c - 0xAC00
  let l := 0x1100 + s / 588
  let v := 0x1161 + s % 588 / 28
  if s % 28 = 0 then [l, v] else [l, v, 0x11A7 + s % 28]

/-- Decomposition of one code point; Hangul syllables split by arithmetic. The fuel bounds how
often a part splits again. -/
def decompose : Nat → Nat → List Nat
  | 0, c => [c]
  | fuel + 1, c =>
    if isSyllable c then letters c
    else (decompositionOf[c]?).elim [c] fun parts ↦ parts.flatMap (decompose fuel)

/-- Puts a code point before others that are in order: a mark goes behind the marks of lower classes. -/
def placeMark (c : Nat) : List Nat → List Nat
  | [] => [c]
  | d :: ds =>
    if combiningClass d < combiningClass c ∧ combiningClass d ≠ 0 then d :: placeMark c ds else c :: d :: ds

def orderMarks (cs : List Nat) : List Nat := cs.foldr placeMark []

def composePair (a b : Nat) : Option Nat :=
  if 0x1100 ≤ a ∧ a ≤ 0x1112 ∧ 0x1161 ≤ b ∧ b ≤ 0x1175 then
    some (0xAC00 + ((a - 0x1100) * 21 + (b - 0x1161)) * 28)
  else if 0xAC00 ≤ a ∧ a ≤ 0xD7A3 ∧ (a - 0xAC00) % 28 = 0 ∧ 0x11A8 ≤ b ∧ b ≤ 0x11C2 then
    some (a + (b - 0x11A7))
  else compositionOf[(a, b)]?

/-- State of the composing scan: what is finished, the last starter, and the marks after it that
did not compose, newest first. -/
structure Composing where
  done : List Nat
  starter : Option Nat
  marks : List Nat

def Composing.finish (s : Composing) : List Nat :=
  s.done ++ s.starter.toList ++ s.marks.reverse

def Composing.step (s : Composing) (c : Nat) : Composing :=
  let cls := combiningClass c
  match s.starter with
  | none => if cls = 0 then ⟨s.finish, some c, []⟩ else ⟨s.done, none, c :: s.marks⟩
  | some a =>
    let blocked := match s.marks with
      | [] => false
      | m :: _ => cls ≤ combiningClass m
    match if blocked then none else composePair a c with
    | some ab => ⟨s.done, some ab, s.marks⟩
    | none => if cls = 0 then ⟨s.finish, some c, []⟩ else ⟨s.done, some a, c :: s.marks⟩

def composed (s : String) : String :=
  if s.toList.all (·.toNat < 0x300) then s
  else
    let parts := orderMarks (s.toList.flatMap fun c ↦ decompose 8 c.toNat)
    String.ofList ((parts.foldl Composing.step ⟨[], none, []⟩).finish.map Char.ofNat)

end CilSsa.Text
