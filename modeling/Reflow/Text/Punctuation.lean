import Reflow.Text.Ranges

/-!
Punctuation, after Unicode 14.

`isPunctuation` is the class that decides whether a delimiter run can open or close: the general
categories Pc, Pd, Pe, Pf, Pi, Po and Ps, and every ASCII symbol as well.
-/

namespace Reflow

def punctuationRanges : Ranges :=
  [(0x21, 3), (0x25, 6), (0x2C, 4), (0x3A, 2), (0x3F, 2), (0x5B, 3), (0x5F, 1), (0x7B, 1),
   (0x7D, 1), (0xA1, 1), (0xA7, 1), (0xAB, 1), (0xB6, 2), (0xBB, 1), (0xBF, 1), (0x37E, 1),
   (0x387, 1), (0x55A, 6), (0x589, 2), (0x5BE, 1), (0x5C0, 1), (0x5C3, 1), (0x5C6, 1), (0x5F3, 2),
   (0x609, 2), (0x60C, 2), (0x61B, 1), (0x61D, 3), (0x66A, 4), (0x6D4, 1), (0x700, 14), (0x7F7, 3),
   (0x830, 15), (0x85E, 1), (0x964, 2), (0x970, 1), (0x9FD, 1), (0xA76, 1), (0xAF0, 1), (0xC77, 1),
   (0xC84, 1), (0xDF4, 1), (0xE4F, 1), (0xE5A, 2), (0xF04, 15), (0xF14, 1), (0xF3A, 4), (0xF85, 1),
   (0xFD0, 5), (0xFD9, 2), (0x104A, 6), (0x10FB, 1), (0x1360, 9), (0x1400, 1), (0x166E, 1),
   (0x169B, 2), (0x16EB, 3), (0x1735, 2), (0x17D4, 3), (0x17D8, 3), (0x1800, 11), (0x1944, 2),
   (0x1A1E, 2), (0x1AA0, 7), (0x1AA8, 6), (0x1B5A, 7), (0x1B7D, 2), (0x1BFC, 4), (0x1C3B, 5),
   (0x1C7E, 2), (0x1CC0, 8), (0x1CD3, 1), (0x2010, 24), (0x2030, 20), (0x2045, 13), (0x2053, 12),
   (0x207D, 2), (0x208D, 2), (0x2308, 4), (0x2329, 2), (0x2768, 14), (0x27C5, 2), (0x27E6, 10),
   (0x2983, 22), (0x29D8, 4), (0x29FC, 2), (0x2CF9, 4), (0x2CFE, 2), (0x2D70, 1), (0x2E00, 47),
   (0x2E30, 32), (0x2E52, 12), (0x3001, 3), (0x3008, 10), (0x3014, 12), (0x3030, 1), (0x303D, 1),
   (0x30A0, 1), (0x30FB, 1), (0xA4FE, 2), (0xA60D, 3), (0xA673, 1), (0xA67E, 1), (0xA6F2, 6),
   (0xA874, 4), (0xA8CE, 2), (0xA8F8, 3), (0xA8FC, 1), (0xA92E, 2), (0xA95F, 1), (0xA9C1, 13),
   (0xA9DE, 2), (0xAA5C, 4), (0xAADE, 2), (0xAAF0, 2), (0xABEB, 1), (0xFD3E, 2), (0xFE10, 10),
   (0xFE30, 35), (0xFE54, 14), (0xFE63, 1), (0xFE68, 1), (0xFE6A, 2), (0xFF01, 3), (0xFF05, 6),
   (0xFF0C, 4), (0xFF1A, 2), (0xFF1F, 2), (0xFF3B, 3), (0xFF3F, 1), (0xFF5B, 1), (0xFF5D, 1),
   (0xFF5F, 7), (0x10100, 3), (0x1039F, 1), (0x103D0, 1), (0x1056F, 1), (0x10857, 1), (0x1091F, 1),
   (0x1093F, 1), (0x10A50, 9), (0x10A7F, 1), (0x10AF0, 7), (0x10B39, 7), (0x10B99, 4), (0x10EAD, 1),
   (0x10F55, 5), (0x10F86, 4), (0x11047, 7), (0x110BB, 2), (0x110BE, 4), (0x11140, 4), (0x11174, 2),
   (0x111C5, 4), (0x111CD, 1), (0x111DB, 1), (0x111DD, 3), (0x11238, 6), (0x112A9, 1), (0x1144B, 5),
   (0x1145A, 2), (0x1145D, 1), (0x114C6, 1), (0x115C1, 23), (0x11641, 3), (0x11660, 13),
   (0x116B9, 1), (0x1173C, 3), (0x1183B, 1), (0x11944, 3), (0x119E2, 1), (0x11A3F, 8), (0x11A9A, 3),
   (0x11A9E, 5), (0x11C41, 5), (0x11C70, 2), (0x11EF7, 2), (0x11FFF, 1), (0x12470, 5), (0x12FF1, 2),
   (0x16A6E, 2), (0x16AF5, 1), (0x16B37, 5), (0x16B44, 1), (0x16E97, 4), (0x16FE2, 1), (0x1BC9F, 1),
   (0x1DA87, 5), (0x1E95E, 2)]

def connectorRanges : Ranges :=
  [(0x5F, 1), (0x203F, 2), (0x2054, 1), (0xFE33, 2), (0xFE4D, 3), (0xFF3F, 1)]

def asciiSymbolRanges : Ranges := [(0x21, 15), (0x3A, 7), (0x5B, 6), (0x7B, 4)]

def isPunctuation (c : Char) : Bool :=
  punctuationRanges.contains c.toNat || asciiSymbolRanges.contains c.toNat

def isAsciiSymbol (c : Char) : Bool := asciiSymbolRanges.contains c.toNat

def isConnector (c : Char) : Bool := connectorRanges.contains c.toNat

end Reflow
