import Reflow.Text.Ranges

/-!
Combining marks, after Unicode 15.1 (general categories Mn, Mc and Me).
-/

namespace Reflow

def markRanges : Ranges :=
  [(0x300, 112), (0x483, 7), (0x591, 45), (0x5BF, 1), (0x5C1, 2), (0x5C4, 2), (0x5C7, 1),
   (0x610, 11), (0x64B, 21), (0x670, 1), (0x6D6, 7), (0x6DF, 6), (0x6E7, 2), (0x6EA, 4), (0x711, 1),
   (0x730, 27), (0x7A6, 11), (0x7EB, 9), (0x7FD, 1), (0x816, 4), (0x81B, 9), (0x825, 3), (0x829, 5),
   (0x859, 3), (0x898, 8), (0x8CA, 24), (0x8E3, 33), (0x93A, 3), (0x93E, 18), (0x951, 7),
   (0x962, 2), (0x981, 3), (0x9BC, 1), (0x9BE, 7), (0x9C7, 2), (0x9CB, 3), (0x9D7, 1), (0x9E2, 2),
   (0x9FE, 1), (0xA01, 3), (0xA3C, 1), (0xA3E, 5), (0xA47, 2), (0xA4B, 3), (0xA51, 1), (0xA70, 2),
   (0xA75, 1), (0xA81, 3), (0xABC, 1), (0xABE, 8), (0xAC7, 3), (0xACB, 3), (0xAE2, 2), (0xAFA, 6),
   (0xB01, 3), (0xB3C, 1), (0xB3E, 7), (0xB47, 2), (0xB4B, 3), (0xB55, 3), (0xB62, 2), (0xB82, 1),
   (0xBBE, 5), (0xBC6, 3), (0xBCA, 4), (0xBD7, 1), (0xC00, 5), (0xC3C, 1), (0xC3E, 7), (0xC46, 3),
   (0xC4A, 4), (0xC55, 2), (0xC62, 2), (0xC81, 3), (0xCBC, 1), (0xCBE, 7), (0xCC6, 3), (0xCCA, 4),
   (0xCD5, 2), (0xCE2, 2), (0xCF3, 1), (0xD00, 4), (0xD3B, 2), (0xD3E, 7), (0xD46, 3), (0xD4A, 4),
   (0xD57, 1), (0xD62, 2), (0xD81, 3), (0xDCA, 1), (0xDCF, 6), (0xDD6, 1), (0xDD8, 8), (0xDF2, 2),
   (0xE31, 1), (0xE34, 7), (0xE47, 8), (0xEB1, 1), (0xEB4, 9), (0xEC8, 7), (0xF18, 2), (0xF35, 1),
   (0xF37, 1), (0xF39, 1), (0xF3E, 2), (0xF71, 20), (0xF86, 2), (0xF8D, 11), (0xF99, 36),
   (0xFC6, 1), (0x102B, 20), (0x1056, 4), (0x105E, 3), (0x1062, 3), (0x1067, 7), (0x1071, 4),
   (0x1082, 12), (0x108F, 1), (0x109A, 4), (0x135D, 3), (0x1712, 4), (0x1732, 3), (0x1752, 2),
   (0x1772, 2), (0x17B4, 32), (0x17DD, 1), (0x180B, 3), (0x180F, 1), (0x1885, 2), (0x18A9, 1),
   (0x1920, 12), (0x1930, 12), (0x1A17, 5), (0x1A55, 10), (0x1A60, 29), (0x1A7F, 1), (0x1AB0, 31),
   (0x1B00, 5), (0x1B34, 17), (0x1B6B, 9), (0x1B80, 3), (0x1BA1, 13), (0x1BE6, 14), (0x1C24, 20),
   (0x1CD0, 3), (0x1CD4, 21), (0x1CED, 1), (0x1CF4, 1), (0x1CF7, 3), (0x1DC0, 64), (0x20D0, 33),
   (0x2CEF, 3), (0x2D7F, 1), (0x2DE0, 32), (0x302A, 6), (0x3099, 2), (0xA66F, 4), (0xA674, 10),
   (0xA69E, 2), (0xA6F0, 2), (0xA802, 1), (0xA806, 1), (0xA80B, 1), (0xA823, 5), (0xA82C, 1),
   (0xA880, 2), (0xA8B4, 18), (0xA8E0, 18), (0xA8FF, 1), (0xA926, 8), (0xA947, 13), (0xA980, 4),
   (0xA9B3, 14), (0xA9E5, 1), (0xAA29, 14), (0xAA43, 1), (0xAA4C, 2), (0xAA7B, 3), (0xAAB0, 1),
   (0xAAB2, 3), (0xAAB7, 2), (0xAABE, 2), (0xAAC1, 1), (0xAAEB, 5), (0xAAF5, 2), (0xABE3, 8),
   (0xABEC, 2), (0xFB1E, 1), (0xFE00, 16), (0xFE20, 16), (0x101FD, 1), (0x102E0, 1), (0x10376, 5),
   (0x10A01, 3), (0x10A05, 2), (0x10A0C, 4), (0x10A38, 3), (0x10A3F, 1), (0x10AE5, 2), (0x10D24, 4),
   (0x10EAB, 2), (0x10EFD, 3), (0x10F46, 11), (0x10F82, 4), (0x11000, 3), (0x11038, 15),
   (0x11070, 1), (0x11073, 2), (0x1107F, 4), (0x110B0, 11), (0x110C2, 1), (0x11100, 3),
   (0x11127, 14), (0x11145, 2), (0x11173, 1), (0x11180, 3), (0x111B3, 14), (0x111C9, 4),
   (0x111CE, 2), (0x1122C, 12), (0x1123E, 1), (0x11241, 1), (0x112DF, 12), (0x11300, 4),
   (0x1133B, 2), (0x1133E, 7), (0x11347, 2), (0x1134B, 3), (0x11357, 1), (0x11362, 2), (0x11366, 7),
   (0x11370, 5), (0x11435, 18), (0x1145E, 1), (0x114B0, 20), (0x115AF, 7), (0x115B8, 9),
   (0x115DC, 2), (0x11630, 17), (0x116AB, 13), (0x1171D, 15), (0x1182C, 15), (0x11930, 6),
   (0x11937, 2), (0x1193B, 4), (0x11940, 1), (0x11942, 2), (0x119D1, 7), (0x119DA, 7), (0x119E4, 1),
   (0x11A01, 10), (0x11A33, 7), (0x11A3B, 4), (0x11A47, 1), (0x11A51, 11), (0x11A8A, 16),
   (0x11C2F, 8), (0x11C38, 8), (0x11C92, 22), (0x11CA9, 14), (0x11D31, 6), (0x11D3A, 1),
   (0x11D3C, 2), (0x11D3F, 7), (0x11D47, 1), (0x11D8A, 5), (0x11D90, 2), (0x11D93, 5), (0x11EF3, 4),
   (0x11F00, 2), (0x11F03, 1), (0x11F34, 7), (0x11F3E, 5), (0x13440, 1), (0x13447, 15),
   (0x16AF0, 5), (0x16B30, 7), (0x16F4F, 1), (0x16F51, 55), (0x16F8F, 4), (0x16FE4, 1),
   (0x16FF0, 2), (0x1BC9D, 2), (0x1CF00, 46), (0x1CF30, 23), (0x1D165, 5), (0x1D16D, 6),
   (0x1D17B, 8), (0x1D185, 7), (0x1D1AA, 4), (0x1D242, 3), (0x1DA00, 55), (0x1DA3B, 50),
   (0x1DA75, 1), (0x1DA84, 1), (0x1DA9B, 5), (0x1DAA1, 15), (0x1E000, 7), (0x1E008, 17),
   (0x1E01B, 7), (0x1E023, 2), (0x1E026, 5), (0x1E08F, 1), (0x1E130, 7), (0x1E2AE, 1), (0x1E2EC, 4),
   (0x1E4EC, 4), (0x1E8D0, 7), (0x1E944, 7), (0xE0100, 240)]

def isMark (c : Char) : Bool := markRanges.contains c.toNat

end Reflow
