/-
Color names.

The common names of opaque colors with their red, green and blue in 8 bits.
-/
import MapStyle.Color.Basic

namespace MapStyle.Color

def names : List (String × UInt8 × UInt8 × UInt8) := [
  ("black", 0x00, 0x00, 0x00), ("white", 0xFF, 0xFF, 0xFF),
  ("red", 0xFF, 0x00, 0x00), ("green", 0x00, 0x80, 0x00),
  ("blue", 0x00, 0x00, 0xFF), ("yellow", 0xFF, 0xFF, 0x00),
  ("orange", 0xFF, 0xA5, 0x00), ("gray", 0x80, 0x80, 0x80),
  ("grey", 0x80, 0x80, 0x80), ("silver", 0xC0, 0xC0, 0xC0),
  ("lightgray", 0xD3, 0xD3, 0xD3), ("lightgrey", 0xD3, 0xD3, 0xD3),
  ("darkgray", 0xA9, 0xA9, 0xA9), ("darkgrey", 0xA9, 0xA9, 0xA9),
  ("dimgray", 0x69, 0x69, 0x69), ("gainsboro", 0xDC, 0xDC, 0xDC),
  ("whitesmoke", 0xF5, 0xF5, 0xF5), ("ivory", 0xFF, 0xFF, 0xF0),
  ("beige", 0xF5, 0xF5, 0xDC), ("wheat", 0xF5, 0xDE, 0xB3),
  ("tan", 0xD2, 0xB4, 0x8C), ("brown", 0xA5, 0x2A, 0x2A),
  ("maroon", 0x80, 0x00, 0x00), ("purple", 0x80, 0x00, 0x80),
  ("fuchsia", 0xFF, 0x00, 0xFF), ("magenta", 0xFF, 0x00, 0xFF),
  ("pink", 0xFF, 0xC0, 0xCB), ("lime", 0x00, 0xFF, 0x00),
  ("olive", 0x80, 0x80, 0x00), ("navy", 0x00, 0x00, 0x80),
  ("teal", 0x00, 0x80, 0x80), ("aqua", 0x00, 0xFF, 0xFF),
  ("cyan", 0x00, 0xFF, 0xFF), ("skyblue", 0x87, 0xCE, 0xEB),
  ("lightblue", 0xAD, 0xD8, 0xE6), ("steelblue", 0x46, 0x82, 0xB4),
  ("royalblue", 0x41, 0x69, 0xE1), ("darkblue", 0x00, 0x00, 0x8B),
  ("darkgreen", 0x00, 0x64, 0x00), ("forestgreen", 0x22, 0x8B, 0x22),
  ("seagreen", 0x2E, 0x8B, 0x57), ("lightgreen", 0x90, 0xEE, 0x90),
  ("khaki", 0xF0, 0xE6, 0x8C), ("gold", 0xFF, 0xD7, 0x00),
  ("coral", 0xFF, 0x7F, 0x50), ("salmon", 0xFA, 0x80, 0x72),
  ("tomato", 0xFF, 0x63, 0x47), ("crimson", 0xDC, 0x14, 0x3C),
  ("darkred", 0x8B, 0x00, 0x00), ("indigo", 0x4B, 0x00, 0x82),
  ("violet", 0xEE, 0x82, 0xEE), ("orchid", 0xDA, 0x70, 0xD6),
  ("lavender", 0xE6, 0xE6, 0xFA), ("linen", 0xFA, 0xF0, 0xE6),
  ("honeydew", 0xF0, 0xFF, 0xF0), ("azure", 0xF0, 0xFF, 0xFF),
  ("aliceblue", 0xF0, 0xF8, 0xFF), ("mintcream", 0xF5, 0xFF, 0xFA),
  ("snow", 0xFF, 0xFA, 0xFA), ("chocolate", 0xD2, 0x69, 0x1E),
  ("sienna", 0xA0, 0x52, 0x2D), ("peru", 0xCD, 0x85, 0x3F),
  ("slategray", 0x70, 0x80, 0x90), ("slategrey", 0x70, 0x80, 0x90)]

end MapStyle.Color
